import Folio.Markup.Octets
import Folio.Proofs.Ascii

set_option autoImplicit false

/-!
# Places in a text in UTF-8

A place is the position where an end of the text starts. Slices between places are the texts between
them. The octets of a character that is not ASCII are no ASCII characters either, so a loop that looks
for those goes from place to place.
-/
namespace Folio.Markup.Octets

theorem octets_ascii {c : Char} (h : c.toNat < 128) : String.utf8EncodeChar c = [octet c] := by
  have hle : c.val.toNat ≤ 0x7f := Nat.le_of_lt_succ h
  rw [String.utf8EncodeChar, if_pos hle]
  rfl

theorem octets_not_ascii {c : Char} (h : ¬ c.toNat < 128) :
    ∃ b r, String.utf8EncodeChar c = b :: r ∧ 0xC0 ≤ b.toNat ∧ ∀ d ∈ r, 128 ≤ d.toNat := by
  have hle : ¬ c.val.toNat ≤ 0x7f := fun hc => h (Nat.lt_succ_of_le hc)
  rw [String.utf8EncodeChar, if_neg hle]
  split
  · refine ⟨_, _, rfl, ?_, ?_⟩
    · simp only [UInt8.toNat_ofNat']
      omega
    · simp only [List.forall_mem_cons, UInt8.toNat_ofNat']
      exact ⟨by omega, by simp⟩
  · split
    · refine ⟨_, _, rfl, ?_, ?_⟩
      · simp only [UInt8.toNat_ofNat']
        omega
      · simp only [List.forall_mem_cons, UInt8.toNat_ofNat']
        exact ⟨by omega, by omega, by simp⟩
    · refine ⟨_, _, rfl, ?_, ?_⟩
      · simp only [UInt8.toNat_ofNat']
        omega
      · simp only [List.forall_mem_cons, UInt8.toNat_ofNat']
        exact ⟨by omega, by omega, by omega, by simp⟩

theorem le_of_mem_octets {c : Char} (h : ¬ c.toNat < 128) :
    ∀ b ∈ String.utf8EncodeChar c, 128 ≤ b.toNat := by
  obtain ⟨b, r, e, hb, hr⟩ := octets_not_ascii h
  rw [e]
  exact List.forall_mem_cons.2 ⟨by omega, hr⟩

theorem toNat_octet {c : Char} (h : c.toNat < 128) : (octet c).toNat = c.toNat := by
  rw [octet, UInt8.toNat_ofNat']
  omega

theorem octet_inj {c d : Char} (hc : c.toNat < 128) (hd : d.toNat < 128) :
    octet c = octet d ↔ c = d := by
  constructor
  · intro e
    have hn := congrArg UInt8.toNat e
    rw [toNat_octet hc, toNat_octet hd] at hn
    exact Char.ext (UInt32.toNat_inj.1 hn)
  · rintro rfl
    rfl

theorem encode_cons (c : Char) (s : Text) : encode (c :: s) = String.utf8EncodeChar c ++ encode s :=
  List.flatMap_cons

theorem encode_append (s t : Text) : encode (s ++ t) = encode s ++ encode t := List.flatMap_append

theorem encode_ascii_cons {c : Char} (h : c.toNat < 128) (s : Text) :
    encode (c :: s) = octet c :: encode s := by
  rw [encode_cons, octets_ascii h]
  rfl

theorem length_encode (s : Text) : (encode s).length = Text.byteLength s := by
  induction s with
  | nil => rfl
  | cons c s ih => rw [encode_cons, List.length_append, ih, String.length_utf8EncodeChar, Text.byteLength]

theorem decode_encode (s : Text) : (encode s).toByteArray.utf8Decode? = some s.toArray := by
  have h : (encode s).toByteArray = List.utf8Encode s := by
    rw [List.utf8Encode]
    rfl
  rw [h, List.utf8Decode?_utf8Encode]

/-- A test of octets that comes to the same as a test of characters, whatever octet of the character
    it is made on. -/
def Agrees (p : UInt8 → Bool) (q : Char → Bool) : Prop := ∀ c, ∀ b ∈ String.utf8EncodeChar c, p b = q c

theorem agrees_octet {d : Char} (hd : d.toNat < 128) :
    Agrees (fun b => b = octet d) (fun c => c = d) := by
  intro c b hb
  by_cases hc : c.toNat < 128
  · rw [octets_ascii hc, List.mem_singleton] at hb
    subst hb
    exact decide_eq_decide.2 (octet_inj hc hd)
  · have hle := le_of_mem_octets hc b hb
    have hb : b ≠ octet d := by
      rintro rfl
      rw [toNat_octet hd] at hle
      omega
    have hcd : c ≠ d := fun e => hc (e ▸ hd)
    simp [hb, hcd]

variable {p p' : UInt8 → Bool} {q q' : Char → Bool}

theorem Agrees.or (h : Agrees p q) (h' : Agrees p' q') :
    Agrees (fun b => p b || p' b) (fun c => q c || q' c) := by
  intro c b hb
  simp only [h c b hb, h' c b hb]

theorem Agrees.and (h : Agrees p q) (h' : Agrees p' q') :
    Agrees (fun b => p b && p' b) (fun c => q c && q' c) := by
  intro c b hb
  simp only [h c b hb, h' c b hb]

theorem Agrees.not (h : Agrees p q) : Agrees (fun b => !p b) (fun c => !q c) := by
  intro c b hb
  simp only [h c b hb]

theorem agrees_isSpace : Agrees isSpace Text.isMarkupSpace :=
  ((((agrees_octet (by decide)).or (agrees_octet (by decide))).or (agrees_octet (by decide))).or
    (agrees_octet (by decide))).or (agrees_octet (by decide))

theorem agrees_isLetter : Agrees isLetter Char.isAlpha := by
  intro c b hb
  by_cases hc : c.toNat < 128
  · rw [octets_ascii hc, List.mem_singleton] at hb
    subst hb
    exact Text.forall_ascii (P := fun c => isLetter (octet c) = c.isAlpha) (by decide) hc
  · have hle := le_of_mem_octets hc b hb
    have hletter : isLetter b = false := by
      simp only [isLetter, Bool.or_eq_false_iff, Bool.and_eq_false_iff, decide_eq_false_iff_not,
        UInt8.le_iff_toNat_le, UInt8.toNat_ofNat]
      omega
    have halpha : c.isAlpha = false := by
      refine Bool.eq_false_iff.2 fun h => hc (Text.toNat_lt_of_isAlphanum ?_)
      rw [Char.isAlphanum, h, Bool.true_or]
    rw [hletter, halpha]

theorem agrees_isNameOctet : Agrees isNameOctet Lexer.isNameChar := by
  intro c b hb
  have h := (agrees_isSpace.not.and (agrees_octet (d := '>') (by decide)).not).and
    (agrees_octet (d := '/') (by decide)).not
  simpa [isNameOctet, Lexer.isNameChar] using h c b hb

theorem agrees_isAttributeNameOctet : Agrees isAttributeNameOctet Lexer.isAttributeNameChar := by
  intro c b hb
  have h := agrees_isNameOctet.and (agrees_octet (d := '=') (by decide)).not
  simpa [isAttributeNameOctet, Lexer.isAttributeNameChar] using h c b hb

theorem agrees_isBareValueOctet : Agrees isBareValueOctet Lexer.isBareValueChar := by
  intro c b hb
  have h := agrees_isSpace.not.and (agrees_octet (d := '>') (by decide)).not
  simpa [isBareValueOctet, Lexer.isBareValueChar] using h c b hb

theorem head_octet (c : Char) (t : Text) :
    ∃ b, (encode (c :: t)).head? = some b ∧ ∀ {p q}, Agrees p q → p b = q c := by
  obtain ⟨b, r, e⟩ := List.exists_cons_of_ne_nil (String.utf8EncodeChar_ne_nil (c := c))
  refine ⟨b, ?_, fun h => h c b (e ▸ List.mem_cons_self)⟩
  rw [encode_cons, e]
  rfl

theorem Agrees.head (h : Agrees p q) (t : Text) : (encode t).head?.any p = t.head?.any q := by
  cases t with
  | nil => rfl
  | cons c t =>
    obtain ⟨b, hb, hall⟩ := head_octet c t
    rw [hb]
    exact hall h

theorem head_eq_octet {d : Char} (hd : d.toNat < 128) (t : Text) :
    (encode t).head? = some (octet d) ↔ t.head? = some d := by
  have h := (agrees_octet hd).head t
  cases ht : t.head? <;> cases he : (encode t).head? <;> simp_all

section

variable (s : Text)

def place (t : Text) : Nat := (encode s).length - (encode t).length

variable {s} {t w : Text}

theorem length_le_of_suffix (h : t <:+ s) : (encode t).length ≤ (encode s).length := by
  obtain ⟨w, rfl⟩ := h
  rw [encode_append, List.length_append]
  exact Nat.le_add_left _ _

theorem drop_place (h : t <:+ s) : (encode s).drop (place s t) = encode t := by
  obtain ⟨w, rfl⟩ := h
  rw [place, encode_append, List.length_append, Nat.add_sub_cancel]
  exact List.drop_left

theorem getElem?_place (h : t <:+ s) (k : Nat) : (encode s)[place s t + k]? = (encode t)[k]? := by
  rw [← drop_place h, List.getElem?_drop]

theorem head_place (h : t <:+ s) : (encode s)[place s t]? = (encode t).head? := by
  rw [List.head?_eq_getElem?]
  exact getElem?_place h 0

theorem place_self : place s s = 0 := Nat.sub_self _

theorem place_nil : place s [] = (encode s).length := rfl

theorem place_append (h : w ++ t <:+ s) : place s t = place s (w ++ t) + (encode w).length := by
  have hle := length_le_of_suffix h
  rw [encode_append, List.length_append] at hle
  rw [place, place, encode_append, List.length_append]
  omega

theorem suffix_of_append (h : w ++ t <:+ s) : t <:+ s := (List.suffix_append w t).trans h

theorem suffix_of_cons {c : Char} (h : c :: t <:+ s) : t <:+ s := (List.suffix_cons c t).trans h

theorem place_ascii {c : Char} (hc : c.toNat < 128) (h : c :: t <:+ s) :
    place s t = place s (c :: t) + 1 := by
  have happend := place_append (w := [c]) h
  rwa [encode_ascii_cons hc] at happend

theorem place_lt {c : Char} (h : c :: t <:+ s) : place s (c :: t) < (encode s).length := by
  have hle := length_le_of_suffix h
  have hpos := List.length_pos_iff.2 (String.utf8EncodeChar_ne_nil (c := c))
  rw [encode_cons, List.length_append] at hle
  rw [place, encode_cons, List.length_append]
  omega

theorem isBoundary_place (h : t <:+ s) : isBoundary (encode s) (place s t) = true := by
  have hhead := head_place h
  cases t with
  | nil =>
    rw [isBoundary, hhead]
    simp [place_nil, encode]
  | cons c t =>
    rw [isBoundary, hhead, encode_cons]
    by_cases hc : c.toNat < 128
    · rw [octets_ascii hc]
      have hlt : octet c < 0x80 := UInt8.lt_iff_toNat_lt.2 (by rw [toNat_octet hc]; exact hc)
      simp [hlt]
    · obtain ⟨b, r, e, hb, _⟩ := octets_not_ascii hc
      have hle : 0xC0 ≤ b := UInt8.le_iff_toNat_le.2 hb
      rw [e]
      simp [hle]

theorem slice_place (h : w ++ t <:+ s) :
    slice (encode s) (place s (w ++ t)) (place s t) = .ok w := by
  have hplace := place_append h
  have htake : ((encode s).drop (place s (w ++ t))).take (place s t - place s (w ++ t)) = encode w := by
    rw [drop_place h, encode_append, hplace, Nat.add_sub_cancel_left]
    exact List.take_left
  rw [slice, isBoundary_place h, isBoundary_place (suffix_of_append h), htake, decode_encode]
  simp [hplace]

def rest (stops : Text → Bool) : Text → Text
  | [] => []
  | c :: u => if stops (c :: u) then c :: u else rest stops u

theorem rest_suffix (stops : Text → Bool) (t : Text) : rest stops t <:+ t := by
  induction t with
  | nil => exact List.suffix_refl []
  | cons c u ih =>
    rw [rest]
    split
    · exact List.suffix_refl _
    · exact ih.trans (List.suffix_cons c u)

theorem advance_add {bytes : Bytes} {go : Nat → Bool} {i k : Nat}
    (h : ∀ j < k, i + j < bytes.length ∧ go (i + j) = true) :
    advance bytes go i = advance bytes go (i + k) := by
  induction k generalizing i with
  | zero => rfl
  | succ k ih =>
    have hnext := ih (i := i + 1) fun j hj => by
      have hj := h (j + 1) (by omega)
      rwa [← Nat.add_assoc, Nat.add_right_comm] at hj
    have hhere : i < bytes.length ∧ go i = true := h 0 (Nat.succ_pos k)
    rw [advance, if_pos hhere, hnext, Nat.add_assoc, Nat.add_comm 1 k]

theorem place_cons {c : Char} (h : c :: t <:+ s) :
    place s t = place s (c :: t) + (String.utf8EncodeChar c).length := by
  have happend := place_append (w := [c]) h
  rwa [encode_cons, List.length_append, show (encode ([] : Text)).length = 0 from rfl] at happend

/-- A loop that starts behind the first octet of a character passes over the others. -/
theorem advance_next {go : Nat → Bool} {c : Char} (h : c :: t <:+ s)
    (hgo : ∀ k, 0 < k → k < (String.utf8EncodeChar c).length → go (place s (c :: t) + k) = true) :
    advance (encode s) go (place s (c :: t) + 1) = advance (encode s) go (place s t) := by
  have hpos := List.length_pos_iff.2 (String.utf8EncodeChar_ne_nil (c := c))
  have hplace := place_cons h
  have hle : place s t ≤ (encode s).length := Nat.sub_le _ _
  have hrun : ∀ j < (String.utf8EncodeChar c).length - 1,
      place s (c :: t) + 1 + j < (encode s).length ∧ go (place s (c :: t) + 1 + j) = true := by
    intro j hj
    rw [Nat.add_assoc]
    exact ⟨by omega, hgo (1 + j) (by omega) (by omega)⟩
  rw [advance_add hrun]
  congr 1
  omega

/-- A loop that stops at a place where a test holds, and nowhere before, ends at the first such. -/
theorem advance_place {go : Nat → Bool} {stops : Text → Bool}
    (hstop : ∀ c u, c :: u <:+ s → stops (c :: u) = true → go (place s (c :: u)) = false)
    (hgo : ∀ c u, c :: u <:+ s → stops (c :: u) = false →
      ∀ k < (String.utf8EncodeChar c).length, go (place s (c :: u) + k) = true)
    (h : t <:+ s) : advance (encode s) go (place s t) = place s (rest stops t) := by
  -- along the text, each step over all octets of one character
  induction t with
  | nil =>
    rw [advance, if_neg]
    · rfl
    · rw [place_nil]
      omega
  | cons c u ih =>
    have hu := suffix_of_cons h
    have hplace := place_cons h
    cases hs : stops (c :: u) with
    | true => rw [advance, if_neg (by simp [hstop c u h hs]), rest, hs, if_pos rfl]
    | false =>
      have hrun : ∀ k < (String.utf8EncodeChar c).length,
          place s (c :: u) + k < (encode s).length ∧ go (place s (c :: u) + k) = true := by
        intro k hk
        have hle : place s u ≤ (encode s).length := Nat.sub_le _ _
        exact ⟨by omega, hgo c u h hs k hk⟩
      rw [advance_add hrun, ← hplace, ih hu, rest, hs, if_neg Bool.false_ne_true]

theorem getElem?_octets {c : Char} (h : c :: t <:+ s) {k : Nat}
    (hk : k < (String.utf8EncodeChar c).length) :
    (encode s)[place s (c :: t) + k]? = some (String.utf8EncodeChar c)[k] := by
  rw [getElem?_place h, encode_cons, List.getElem?_append_left hk, List.getElem?_eq_getElem hk]

theorem rest_eq_dropWhile (q : Char → Bool) (t : Text) :
    rest (fun u => u.head?.any fun c => !q c) t = t.dropWhile q := by
  induction t with
  | nil => rfl
  | cons c u ih =>
    rw [rest, ih]
    cases hc : q c with
    | true => simp [hc]
    | false => simp [hc]

theorem skip_place {p : UInt8 → Bool} {q : Char → Bool} (hp : Agrees p q) (h : t <:+ s) :
    skip (encode s) p (place s t) = place s (t.dropWhile q) := by
  rw [skip, ← rest_eq_dropWhile]
  refine advance_place ?_ ?_ h
  · intro c u hcu hq
    rw [head_place hcu, hp.head]
    simpa using hq
  · intro c u hcu hq k hk
    rw [getElem?_octets hcu hk]
    have hq : q c = true := by simpa using hq
    exact (hp c _ (List.getElem_mem hk)).trans hq

theorem skip_next {p : UInt8 → Bool} {q : Char → Bool} (hp : Agrees p q)
    (hq : ∀ c : Char, ¬ c.toNat < 128 → q c = true) {c : Char} (h : c :: t <:+ s) :
    skip (encode s) p (place s (c :: t) + 1) = place s (t.dropWhile q) := by
  rw [skip, advance_next h]
  · exact skip_place hp (suffix_of_cons h)
  · intro k hpos hk
    have hc : ¬ c.toNat < 128 := by
      intro hc
      rw [octets_ascii hc, List.length_singleton] at hk
      omega
    rw [getElem?_octets h hk]
    exact (hp c _ (List.getElem_mem hk)).trans (hq c hc)

end

section

variable {s t : Text}

theorem isPrefixOf_encode {w : Text} (hw : ∀ c ∈ w, c.toNat < 128) (t : Text) :
    (encode w).isPrefixOf (encode t) = (Text.dropStart? w t).isSome := by
  induction w generalizing t with
  | nil => rfl
  | cons a w ih =>
    obtain ⟨ha, hw⟩ := List.forall_mem_cons.1 hw
    rw [encode_ascii_cons ha]
    cases t with
    | nil => rfl
    | cons c t =>
      by_cases hc : c.toNat < 128
      · rw [encode_ascii_cons hc, List.isPrefixOf_cons_cons, ih hw, Text.dropStart?]
        by_cases e : a = c
        · simp [e]
        · have hne : octet a ≠ octet c := fun ho => e ((octet_inj ha hc).1 ho)
          simp [e, hne]
      · obtain ⟨b, r, e, hb, _⟩ := octets_not_ascii hc
        have hac : a ≠ c := fun e => hc (e ▸ ha)
        have hab : octet a ≠ b := by
          rintro rfl
          rw [toNat_octet ha] at hb
          omega
        rw [encode_cons, e, Text.dropStart?, if_neg hac, List.cons_append, List.isPrefixOf_cons_cons]
        simp [hab]

theorem rest_eq_cut? {d : Char} {w : Text} (t : Text) :
    rest (fun u => (Text.dropStart? (d :: w) u).isSome) t =
      ((Text.cut? (d :: w) t).map fun x => d :: w ++ x.2).getD [] := by
  induction t with
  | nil => rfl
  | cons c t ih =>
    rw [rest, Text.cut?]
    cases hd : Text.dropStart? (d :: w) (c :: t) with
    | some r =>
      simp only [Option.isSome_some, if_pos]
      exact Text.dropStart?_eq_some hd
    | none =>
      simp only [Option.isSome_none, Bool.false_eq_true, if_false]
      rw [ih, Option.map_map]
      rfl

theorem find?_place {d : Char} {w : Text} (hw : ∀ c ∈ d :: w, c.toNat < 128) (h : t <:+ s) :
    find? (encode s) (encode (d :: w)) (place s t) =
      (Text.cut? (d :: w) t).map fun x => place s (d :: w ++ x.2) := by
  have hd : d.toNat < 128 := hw d List.mem_cons_self
  have hloop : advance (encode s) (fun k => !(encode (d :: w)).isPrefixOf ((encode s).drop k))
      (place s t) = place s (rest (fun u => (Text.dropStart? (d :: w) u).isSome) t) := by
    refine advance_place ?_ ?_ h
    · intro c u hcu hs
      rw [drop_place hcu, isPrefixOf_encode hw, hs]
      rfl
    · intro c u hcu hs k hk
      by_cases hc : c.toNat < 128
      · rw [octets_ascii hc, List.length_singleton, Nat.lt_one_iff] at hk
        rw [hk, Nat.add_zero, drop_place hcu, isPrefixOf_encode hw, hs]
        rfl
      · -- no needle starts within a character
        have hle := le_of_mem_octets hc _ (List.getElem_mem hk)
        have hhead : ((encode s).drop (place s (c :: u) + k)).head? =
            some (String.utf8EncodeChar c)[k] := by
          rw [List.head?_drop, getElem?_octets hcu hk]
        obtain ⟨l, hl⟩ := List.head?_eq_some_iff.1 hhead
        have hne : octet d ≠ (String.utf8EncodeChar c)[k] := by
          intro e
          rw [← e, toNat_octet hd] at hle
          omega
        rw [hl, encode_ascii_cons hd, List.isPrefixOf_cons_cons]
        simp [hne]
  have hrest := rest_suffix (fun u => (Text.dropStart? (d :: w) u).isSome) t
  rw [find?, hloop]
  rw [rest_eq_cut?] at hrest ⊢
  cases hcut : Text.cut? (d :: w) t with
  | none => simp [place_nil]
  | some x =>
    rw [hcut] at hrest
    have hlt : place s (d :: (w ++ x.2)) < (encode s).length := place_lt (hrest.trans h)
    simp [hlt]

theorem find?_octet {d : Char} (hd : d.toNat < 128) (h : t <:+ s) :
    find? (encode s) [octet d] (place s t) = (Text.cut? [d] t).map fun x => place s (d :: x.2) := by
  have hfind := find?_place (w := []) (List.forall_mem_singleton.2 hd) h
  rwa [encode_ascii_cons hd] at hfind

end

end Folio.Markup.Octets
