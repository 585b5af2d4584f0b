import Folio.Proofs.Escape

set_option autoImplicit false

/-!
# Respelled text

Respelling writes nothing but whole references and characters that need none. Each of these is
respelled as itself, whatever stands behind it, so text that has been respelled once stays as it is
also where it is joined with more of the kind; and it decodes to what the text decoded to before.
-/
namespace Folio.Markup

/-- What may stand between the ampersand and the semicolon of a named reference. -/
structure IsReferenceName (w : Text) : Prop where
  alphanum : ∀ c ∈ w, c.isAlphanum = true
  letter : w.head?.any Char.isAlpha = true
  two_le : 2 ≤ w.length
  le_max : w.length ≤ 32

instance (w : Text) : Decidable (IsReferenceName w) :=
  decidable_of_iff ((∀ c ∈ w, c.isAlphanum = true) ∧ w.head?.any Char.isAlpha = true ∧
      2 ≤ w.length ∧ w.length ≤ 32)
    ⟨fun ⟨h₁, h₂, h₃, h₄⟩ => ⟨h₁, h₂, h₃, h₄⟩, fun ⟨h₁, h₂, h₃, h₄⟩ => ⟨h₁, h₂, h₃, h₄⟩⟩

theorem IsReferenceName.not_mem {w : Text} (h : IsReferenceName w) {d : Char}
    (hd : d.isAlphanum = false) : d ∉ w :=
  fun hm => Bool.false_ne_true (hd.symm.trans (h.alphanum d hm))

theorem spelled?_of_isReferenceName {w : Text} (h : IsReferenceName w) (r : Text) :
    spelled? (w ++ ';' :: r) = some (w ++ ";", r) := by
  have hstop : Char.isAlphanum ';' = false := by decide
  have htake : (w ++ ';' :: r).takeWhile Char.isAlphanum = w := by
    rw [List.takeWhile_append_of_pos h.alphanum, List.takeWhile_cons_of_neg (by simp [hstop]),
      List.append_nil]
  have hdrop : (w ++ ';' :: r).dropWhile Char.isAlphanum = ';' :: r := by
    rw [List.dropWhile_append_of_pos h.alphanum, List.dropWhile_cons_of_neg (by simp [hstop])]
  simp [spelled?, htake, hdrop, h.letter, h.two_le, h.le_max]

theorem exists_of_spelled? {s n r : Text} (h : spelled? s = some (n, r)) :
    ∃ w, IsReferenceName w ∧ n = w ++ ";" ∧ s = w ++ ';' :: r := by
  have hs := spelled?_eq_some h
  simp only [spelled?] at h
  split at h
  · split at h
    · rename_i hlong
      obtain ⟨rfl, _⟩ : s.takeWhile Char.isAlphanum ++ ";" = n ∧ _ = r := by simpa using h
      obtain ⟨⟨hletter, htwo⟩, hmax⟩ :
          ((s.takeWhile Char.isAlphanum).head?.any Char.isAlpha = true ∧
            2 ≤ (s.takeWhile Char.isAlphanum).length) ∧
          (s.takeWhile Char.isAlphanum).length ≤ 32 := by simpa using hlong
      refine ⟨_, ⟨fun c hc => List.mem_takeWhile_imp hc, hletter, htwo, hmax⟩, rfl, ?_⟩
      simpa using hs
    · simp at h
  · simp at h

theorem named?_append {w : Text} (h : ';' ∉ w) (r : Text) :
    named? (w ++ ';' :: r) = (named? (w ++ [';'])).map fun x => (x.1, x.2 ++ r) := by
  have hnames : ∀ e ∈ names, Char.toLower ';' ∉ e.1 := by decide
  unfold named?
  generalize names = l at hnames
  induction l with
  | nil => rfl
  | cons e l ih =>
    obtain ⟨name, c, closed⟩ := e
    have hname : Char.toLower ';' ∉ name := hnames _ List.mem_cons_self
    have hrest := ih fun e he => hnames e (List.mem_cons_of_mem _ he)
    simp only [List.findSome?_cons, hrest, Text.dropStartUnder?_append_cons hname]
    cases hd : Text.dropStartUnder? Char.toLower name w with
    | none => rfl
    | some v =>
      cases v with
      | nil => rfl
      | cons a v =>
        have ha : a ≠ ';' := by
          obtain ⟨q, _, rfl⟩ := Text.dropStartUnder?_eq_some hd
          rintro rfl
          exact h (List.mem_append_right q List.mem_cons_self)
        cases closed <;> simp [ha]

theorem exists_of_named? {s r : Text} {c : Char} (h : named? s = some (c, r)) :
    ∃ q, '&' ∉ q ∧ s = q ++ r := by
  have hnames : ∀ e ∈ names, '&' ∉ e.1 := by decide
  obtain ⟨⟨name, d, closed⟩, hmem, h⟩ := List.exists_of_findSome?_eq_some h
  have hamp {q : Text} (hq : q.map Char.toLower = name) : '&' ∉ q := fun hm =>
    hnames _ hmem (hq ▸ List.mem_map_of_mem (f := Char.toLower) hm)
  dsimp only at h
  split at h
  · rename_i t ht
    obtain ⟨_, rfl⟩ : d = c ∧ t = r := by simpa using h
    obtain ⟨q, hq, rfl⟩ := Text.dropStartUnder?_eq_some ht
    exact ⟨q ++ [';'], by simp [hamp hq], by simp⟩
  · rename_i t _ ht
    split at h
    · simp at h
    · obtain ⟨_, rfl⟩ : d = c ∧ t = r := by simpa using h
      obtain ⟨q, hq, rfl⟩ := Text.dropStartUnder?_eq_some ht
      exact ⟨q, hamp hq, rfl⟩
  · simp at h

theorem named?_suffix {s r : Text} {c : Char} (h : named? s = some (c, r)) : r <:+ s := by
  obtain ⟨q, _, rfl⟩ := exists_of_named? h
  exact List.suffix_append q r

/-- A name that is no reference `decode` reads to its end. Its reference is written as it is. -/
structure Stands (w : Text) : Prop extends IsReferenceName w where
  unread : ∀ c, named? (w ++ [';']) ≠ some (c, [])

theorem reference?_of_isReferenceName {w : Text} (h : IsReferenceName w) (r : Text) :
    reference? (w ++ ';' :: r) = (named? (w ++ [';'])).map fun x => (x.1, x.2 ++ r) := by
  rw [← named?_append (h.not_mem (by decide))]
  cases w with
  | nil => exact absurd h.two_le (by decide)
  | cons c w =>
    have hc : c ≠ '#' := fun e => h.not_mem (d := '#') (by decide) (e ▸ List.mem_cons_self)
    simp [reference?, hc]

theorem Stands.length_lt_of_reference? {w v r : Text} {c : Char} (h : Stands w)
    (hc : reference? (w ++ ';' :: v) = some (c, r)) : v.length < r.length := by
  rw [reference?_of_isReferenceName h.toIsReferenceName] at hc
  obtain ⟨⟨d, q⟩, hq, e⟩ := Option.map_eq_some_iff.1 hc
  obtain ⟨rfl, rfl⟩ : d = c ∧ q ++ v = r := by simpa using e
  have hpos := List.length_pos_iff.2 fun e : q = [] => h.unread d (e ▸ hq)
  rw [List.length_append]
  omega

theorem respellReference_cases (s : Text) :
    (∃ c r, respellReference s = (escapeChar c, r) ∧ decode ('&' :: s) = c :: decode r) ∨
      ∃ w r, Stands w ∧ s = w ++ ';' :: r ∧ respellReference s = ('&' :: (w ++ ";"), r) := by
  unfold respellReference
  cases hr : reference? s with
  | none =>
    cases hs : spelled? s with
    | none => exact .inl ⟨'&', s, rfl, decode_amp hr⟩
    | some found =>
      obtain ⟨n, t⟩ := found
      obtain ⟨w, hw, rfl, rfl⟩ := exists_of_spelled? hs
      rw [reference?_of_isReferenceName hw] at hr
      refine .inr ⟨w, t, ⟨hw, ?_⟩, rfl, rfl⟩
      intro c hc
      simp [hc] at hr
  | some read =>
    obtain ⟨c, r⟩ := read
    have hdecode := decode_reference hr
    cases hs : spelled? s with
    | none => exact .inl ⟨c, r, rfl, hdecode⟩
    | some found =>
      obtain ⟨n, t⟩ := found
      dsimp only
      split
      · -- the name is longer than what was read of it, and passes as written
        rename_i hlt
        obtain ⟨w, hw, rfl, rfl⟩ := exists_of_spelled? hs
        rw [reference?_of_isReferenceName hw] at hr
        refine .inr ⟨w, t, ⟨hw, ?_⟩, rfl, rfl⟩
        intro d hd
        obtain ⟨_, rfl⟩ : d = c ∧ t = r := by simpa [hd] using hr
        exact Nat.lt_irrefl _ hlt
      · exact .inl ⟨c, r, rfl, hdecode⟩

theorem exists_of_digits? {radix : Nat} {isDigit : Char → Bool} (hamp : isDigit '&' = false)
    {s r : Text} {c : Char} (h : digits? radix isDigit s = some (c, r)) :
    ∃ q, '&' ∉ q ∧ s = q ++ r := by
  have htake : '&' ∉ s.takeWhile isDigit := fun hm =>
    Bool.false_ne_true (hamp.symm.trans (List.mem_takeWhile_imp hm))
  have hs := List.takeWhile_append_dropWhile (p := isDigit) (l := s)
  simp only [digits?] at h
  split at h
  · simp at h
  · obtain ⟨_, rfl⟩ : charOfCode _ = c ∧ dropSemicolon _ = r := by simpa using h
    unfold dropSemicolon
    split
    · rename_i t ht
      rw [ht] at hs
      exact ⟨s.takeWhile isDigit ++ [';'], by simp [htake], by simpa using hs.symm⟩
    · exact ⟨s.takeWhile isDigit, htake, hs.symm⟩

theorem exists_of_reference? {s r : Text} {c : Char} (h : reference? s = some (c, r)) :
    ∃ q, '&' ∉ q ∧ s = q ++ r := by
  have behind {a : Char} {t : Text} (ha : a ≠ '&') (ht : ∃ q, '&' ∉ q ∧ t = q ++ r) :
      ∃ q, '&' ∉ q ∧ a :: t = q ++ r := by
    obtain ⟨q, hq, rfl⟩ := ht
    exact ⟨a :: q, by simp [hq, Ne.symm ha], rfl⟩
  unfold reference? at h
  split at h
  · refine behind (by decide) ?_
    unfold numeric? at h
    split at h
    · exact behind (by decide) (exists_of_digits? (by decide) h)
    · exact behind (by decide) (exists_of_digits? (by decide) h)
    · exact exists_of_digits? (by decide) h
  · exact exists_of_named? h

theorem exists_of_respellReference (s : Text) :
    ∃ q, '&' ∉ q ∧ s = q ++ (respellReference s).2 := by
  have spelled {n r : Text} (h : spelled? s = some (n, r)) : ∃ q, '&' ∉ q ∧ s = q ++ r := by
    obtain ⟨w, hw, rfl, rfl⟩ := exists_of_spelled? h
    have hamp := hw.not_mem (d := '&') (by decide)
    exact ⟨w ++ ";", by simp [hamp], by simp⟩
  unfold respellReference
  split
  · split
    · exact spelled ‹_›
    · exact exists_of_reference? ‹_›
  · exact spelled ‹_›
  · exact exists_of_reference? ‹_›
  · exact ⟨[], List.not_mem_nil, rfl⟩

theorem respell_cons_of_ne {c : Char} (h : c ≠ '&') (s : Text) :
    respell (c :: s) = escapeChar c ++ respell s := by
  rw [respell, if_neg h]

theorem respell_amp (s : Text) :
    respell ('&' :: s) = (respellReference s).1 ++ respell (respellReference s).2 := by
  rw [respell, if_pos rfl]

/-- How a text is respelled: a piece is written from the character that it decodes to, or is a name that
    stands. -/
inductive Respelled : Text → Text → Prop where
  | nil : Respelled [] []
  | char {c : Char} {s r w : Text} (hd : decode s = c :: decode r) (h : Respelled r w) :
    Respelled s (escapeChar c ++ w)
  | name {n r w : Text} (hn : Stands n) (h : Respelled r w) :
    Respelled ('&' :: (n ++ ';' :: r)) ('&' :: (n ++ ";") ++ w)

theorem respelled (s : Text) : Respelled s (respell s) := by
  fun_induction respell s with
  | case1 => exact .nil
  | case2 s ih =>
    rcases respellReference_cases s with ⟨c, r, e, hd⟩ | ⟨n, r, hn, rfl, e⟩
    · rw [e] at ih ⊢
      exact .char hd ih
    · rw [e] at ih ⊢
      exact .name hn ih
  | case3 c s hc ih => exact .char (decode_cons_of_ne hc s) ih

theorem Respelled.inert {s w : Text} (h : Respelled s w) : Inert w := by
  induction h with
  | nil => exact inert_nil
  | char _ _ ih => exact inert_append (inert_escapeChar _) ih
  | name hn _ ih =>
    have hname := inert_append (inert_of_isAlphanum hn.alphanum) (t := ";") (by unfold Inert; decide)
    exact inert_append (inert_append (s := ['&']) (by unfold Inert; decide) hname) ih

/-- Text that is respelled as it is, whatever stands behind it. -/
def Settled (w : Text) : Prop := ∀ r, respell (w ++ r) = w ++ respell r

theorem settled_nil : Settled [] := fun _ => rfl

theorem Settled.respell_eq {w : Text} (h : Settled w) : respell w = w := by
  have hw := h []
  rwa [List.append_nil, respell, List.append_nil] at hw

theorem settled_append {v w : Text} (hv : Settled v) (hw : Settled w) : Settled (v ++ w) := by
  intro r
  rw [List.append_assoc, hv, hw, List.append_assoc]

theorem respell_read {w : Text} {c : Char} (hw : IsReferenceName w)
    (hc : named? (w ++ [';']) = some (c, [])) (r : Text) :
    respell ('&' :: (w ++ ';' :: r)) = escapeChar c ++ respell r := by
  have hwritten : respellReference (w ++ ';' :: r) = (escapeChar c, r) := by
    simp [respellReference, reference?_of_isReferenceName hw, hc, spelled?_of_isReferenceName hw]
  rw [respell_amp, hwritten]

theorem settled_stands {w : Text} (h : Stands w) : Settled ('&' :: (w ++ ";")) := by
  intro r
  have hwritten : respellReference (w ++ ';' :: r) = ('&' :: (w ++ ";"), r) := by
    unfold respellReference
    rw [spelled?_of_isReferenceName h.toIsReferenceName]
    cases hread : reference? (w ++ ';' :: r) with
    | none => rfl
    | some read => exact if_pos (h.length_lt_of_reference? hread)
  have hs : '&' :: (w ++ ";") ++ r = '&' :: (w ++ ';' :: r) := by simp
  rw [hs, respell_amp, hwritten]

theorem settled_escapeChar (c : Char) : Settled (escapeChar c) := by
  intro r
  by_cases hself : escapeChar c = [c]
  · have hc : c ≠ '&' := by
      rintro rfl
      exact absurd hself (by decide)
    rw [hself, List.singleton_append, respell_cons_of_ne hc, hself]
  · -- an escaped character is written as a reference to itself
    revert hself
    unfold escapeChar
    split <;> intro hself
    · exact respell_read (w := "amp") (by decide) rfl r
    · exact respell_read (w := "lt") (by decide) rfl r
    · exact respell_read (w := "gt") (by decide) rfl r
    · exact respell_read (w := "quot") (by decide) rfl r
    · rw [show (("&#39;" : Text) ++ r) = '&' :: ("#39;" ++ r) from rfl, respell_amp]
      rfl
    · exact absurd rfl hself

theorem settled_escape (s : Text) : Settled (escape s) := by
  induction s with
  | nil => exact settled_nil
  | cons c s ih => exact settled_append (settled_escapeChar c) ih

theorem Respelled.settled {s w : Text} (h : Respelled s w) : Settled w := by
  induction h with
  | nil => exact settled_nil
  | char _ _ ih => exact settled_append (settled_escapeChar _) ih
  | name hn _ ih => exact settled_append (settled_stands hn) ih

def Firm (w : Text) : Prop := ∀ r, guardBacktick (respell (w ++ r)) = w ++ guardBacktick (respell r)

theorem firm_append {v w : Text} (hv : Firm v) (hw : Firm w) : Firm (v ++ w) := by
  intro r
  rw [List.append_assoc, hv, hw, List.append_assoc]

theorem Firm.guarded_eq {w : Text} (h : Firm w) : guardBacktick (respell w) = w := by
  have hr := h []
  rwa [List.append_nil, respell, show guardBacktick [] = [] from rfl, List.append_nil] at hr

theorem Settled.firm {w : Text} (h : Settled w) (hw : '`' ∉ w) : Firm w := by
  intro r
  rw [h, guardBacktick_append, guardBacktick_of_not_mem hw]

theorem backtick_not_mem_escapeChar {c : Char} (h : c ≠ '`') : '`' ∉ escapeChar c := by
  rcases escapeChar_cases c with hw | ⟨hw, _⟩
  · generalize escapeChar c = w at hw
    revert w
    decide
  · simpa [hw] using Ne.symm h

theorem Stands.backtick {w : Text} (h : Stands w) : '`' ∉ '&' :: (w ++ ";") := by
  have hw := h.not_mem (d := '`') (by decide)
  simp [hw]

theorem respell_backtick (r : Text) : respell (("&#96;" : Text) ++ r) = '`' :: respell r := by
  rw [show (("&#96;" : Text) ++ r) = '&' :: ("#96;" ++ r) from rfl, respell_amp]
  rfl

theorem firm_guarded (c : Char) : Firm (guardBacktick (escapeChar c)) := by
  by_cases h : c = '`'
  · subst h
    intro r
    exact (congrArg guardBacktick (respell_backtick r)).trans (guardBacktick_append ['`'] _)
  · have hc := backtick_not_mem_escapeChar h
    rw [guardBacktick_of_not_mem hc]
    exact (settled_escapeChar c).firm hc

theorem Respelled.firm {s w : Text} (h : Respelled s w) : Firm (guardBacktick w) := by
  induction h with
  | nil => exact fun _ => rfl
  | char _ _ ih =>
    rw [guardBacktick_append]
    exact firm_append (firm_guarded _) ih
  | name hn _ ih =>
    rw [guardBacktick_append, guardBacktick_of_not_mem hn.backtick]
    exact firm_append ((settled_stands hn).firm hn.backtick) ih

theorem firm_escapeAttribute (s : Text) : Firm (escapeAttribute s) := by
  induction s with
  | nil => exact fun _ => rfl
  | cons c s ih =>
    rw [escapeAttribute_cons]
    exact firm_append (firm_guarded c) ih

theorem respell_escapeAttribute (s : Text) :
    guardBacktick (respell (escapeAttribute s)) = escapeAttribute s :=
  (firm_escapeAttribute s).guarded_eq

theorem escapeAttribute_eq_self {s : Text} (h : ∀ c ∈ s, guardBacktick (escapeChar c) = [c]) :
    escapeAttribute s = s := by
  induction s with
  | nil => rfl
  | cons c s ih =>
    obtain ⟨hc, hs⟩ := List.forall_mem_cons.1 h
    rw [escapeAttribute_cons, hc, ih hs]
    rfl

theorem respell_guarded (s : Text) :
    guardBacktick (respell (guardBacktick (respell s))) = guardBacktick (respell s) :=
  (respelled s).firm.guarded_eq

theorem decode_append_of_not_mem {w : Text} (h : '&' ∉ w) (r : Text) :
    decode (w ++ r) = w ++ decode r := by
  induction w with
  | nil => rfl
  | cons c w ih =>
    have hc : c ≠ '&' := fun e => h (e ▸ List.mem_cons_self)
    rw [List.cons_append, decode_cons_of_ne hc, ih fun hm => h (List.mem_cons_of_mem c hm)]
    rfl

theorem exists_decode_stands {w : Text} (hw : Stands w) :
    ∃ v, ';' ∈ v ∧ ∀ r, decode ('&' :: (w ++ ';' :: r)) = v ++ decode r := by
  have hamp : '&' ∉ w ++ [';'] := by
    have hnot := hw.not_mem (d := '&') (by decide)
    simp [hnot]
  cases hn : named? (w ++ [';']) with
  | none =>
    refine ⟨'&' :: (w ++ [';']), by simp, fun r => ?_⟩
    have href := reference?_of_isReferenceName hw.toIsReferenceName r
    rw [hn] at href
    have hrest := decode_append_of_not_mem hamp r
    rw [decode_amp href]
    simpa using hrest
  | some read =>
    obtain ⟨c, q⟩ := read
    have hsuffix := named?_suffix hn
    have hsemicolon : ';' ∈ q := by
      rcases List.suffix_concat_iff.1 hsuffix with rfl | ⟨q, rfl, _⟩
      · exact absurd hn (hw.unread c)
      · simp
    refine ⟨c :: q, List.mem_cons_of_mem c hsemicolon, fun r => ?_⟩
    have href := reference?_of_isReferenceName hw.toIsReferenceName r
    rw [hn] at href
    have hq : '&' ∉ q := fun hm => hamp (hsuffix.subset hm)
    rw [decode_reference href]
    dsimp only
    rw [decode_append_of_not_mem hq, List.cons_append]

theorem Respelled.decode_guarded {s w : Text} (h : Respelled s w) :
    decode (guardBacktick w) = decode s := by
  induction h with
  | nil => rfl
  | char hd _ ih => rw [guardBacktick_append, Markup.decode_guarded, ih, hd]
  | name hn _ ih =>
    obtain ⟨v, _, hv⟩ := exists_decode_stands hn
    rw [guardBacktick_append, guardBacktick_of_not_mem hn.backtick, hv, ← ih, ← hv]
    simp

theorem Respelled.decode_append {s w : Text} (h : Respelled s w) (r : Text) :
    decode (w ++ r) = decode s ++ decode r := by
  induction h with
  | nil => rw [decode]; rfl
  | char hd _ ih => rw [List.append_assoc, decode_escapeChar, ih, hd, List.cons_append]
  | @name n t w hn _ ih =>
    obtain ⟨v, _, hv⟩ := exists_decode_stands hn
    have hwritten : '&' :: (n ++ ";") ++ w ++ r = '&' :: (n ++ ';' :: (w ++ r)) := by simp
    rw [hwritten, hv, hv, ih, List.append_assoc]

/-- What stands between the ampersand and the semicolon of a complete reference. -/
inductive IsReference : Text → Prop where
  | named {w : Text} (h : IsReferenceName w) : IsReference w
  | numbered {ds : Text} (hne : ds ≠ []) (h : ∀ c ∈ ds, c.isDigit = true) : IsReference ('#' :: ds)

/-- Every ampersand begins a complete reference. -/
def Referenced (s : Text) : Prop := ∀ v, '&' :: v <:+ s → ∃ w r, IsReference w ∧ v = w ++ ';' :: r

theorem IsReference.not_mem {w : Text} (h : IsReference w) : '&' ∉ w := by
  cases h with
  | named h => exact h.not_mem (by decide)
  | numbered _ h =>
    intro hm
    have hdigit := h '&' ((List.mem_cons.1 hm).resolve_left (by decide))
    exact absurd hdigit (by decide)

theorem referenced_of_not_mem {s : Text} (h : '&' ∉ s) : Referenced s :=
  fun _ hv => absurd (hv.subset List.mem_cons_self) h

theorem suffix_append_cases {c : Char} {v s t : Text} (h : c :: v <:+ s ++ t) :
    c :: v <:+ t ∨ ∃ u, c :: u <:+ s ∧ v = u ++ t := by
  obtain ⟨p, hp⟩ := h
  rcases List.append_eq_append_iff.1 hp with ⟨q, rfl, hq⟩ | ⟨q, rfl, rfl⟩
  · cases q with
    | nil => exact .inl (hq ▸ List.suffix_refl _)
    | cons d q =>
      obtain ⟨rfl, rfl⟩ := List.cons.inj hq
      exact .inr ⟨q, List.suffix_append p _, rfl⟩
  · exact .inl (List.suffix_append q _)

theorem referenced_append {s t : Text} (hs : Referenced s) (ht : Referenced t) :
    Referenced (s ++ t) := by
  intro v hv
  rcases suffix_append_cases hv with hv | ⟨u, hu, rfl⟩
  · exact ht v hv
  · obtain ⟨w, r, hw, rfl⟩ := hs u hu
    exact ⟨w, r ++ t, hw, by rw [List.append_assoc, List.cons_append]⟩

theorem referenced_of_isReference {w : Text} (h : IsReference w) : Referenced ('&' :: (w ++ ";")) := by
  intro v hv
  rcases List.suffix_cons_iff.1 hv with e | hv
  · exact ⟨w, [], h, (List.cons.inj e).2⟩
  · have hamp : '&' ∉ w ++ [';'] := by
      have hw := h.not_mem
      simp [hw]
    exact absurd (hv.subset List.mem_cons_self) hamp

theorem referenced_escapeChar (c : Char) : Referenced (escapeChar c) := by
  unfold escapeChar
  split
  · exact referenced_of_isReference (w := "amp") (.named (by decide))
  · exact referenced_of_isReference (w := "lt") (.named (by decide))
  · exact referenced_of_isReference (w := "gt") (.named (by decide))
  · exact referenced_of_isReference (w := "quot") (.named (by decide))
  · exact referenced_of_isReference (w := '#' :: "39") (.numbered (by decide) (by decide))
  · rename_i hamp _ _ _ _
    exact referenced_of_not_mem (by simpa using Ne.symm hamp)

theorem Respelled.referenced {s w : Text} (h : Respelled s w) : Referenced w := by
  induction h with
  | nil => exact referenced_of_not_mem List.not_mem_nil
  | char _ _ ih => exact referenced_append (referenced_escapeChar _) ih
  | name hn _ ih => exact referenced_append (referenced_of_isReference (.named hn.toIsReferenceName)) ih

/-- Respelled text is inert, its references are whole, and it decodes to what the text decoded to. It is
    respelled as itself, also where two such texts are joined, and a name that `decode` does not read to
    its end is kept. -/
theorem respell_preserves_meaning (a b : Text) :
    Inert (respell a) ∧ Referenced (respell a) ∧ decode (respell a) = decode a ∧
      respell (respell a) = respell a ∧
      respell (respell a ++ respell b) = respell a ++ respell b ∧
      ∀ w, Stands w → respell ('&' :: (w ++ ';' :: b)) = '&' :: (w ++ ';' :: respell b) := by
  have ha := respelled a
  have hb := respelled b
  have hdecode : decode (respell a) = decode a := by
    have halone := ha.decode_append []
    rwa [List.append_nil, decode, List.append_nil] at halone
  refine ⟨ha.inert, ha.referenced, hdecode, ha.settled.respell_eq,
    (settled_append ha.settled hb.settled).respell_eq, fun w hw => ?_⟩
  simpa using settled_stands hw b

end Folio.Markup
