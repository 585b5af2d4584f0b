import Folio.Proofs.Places
import Folio.Proofs.Tags

set_option autoImplicit false

/-!
# Reading octets is reading text

Each reader of octets, started at a place, answers with what the reader of the text answers with, and
goes on at the place where that one goes on. So no slice ever cuts a character apart, and the tokens
of the octets are those of the text, with their spans.
-/
namespace Folio.Markup.Octets

variable {s t u : Text} {c : Char}

theorem slice_skip (q : Char → Bool) (h : t <:+ s) :
    slice (encode s) (place s t) (place s (t.dropWhile q)) = .ok (t.takeWhile q) := by
  have happend : t.takeWhile q ++ t.dropWhile q = t := List.takeWhile_append_dropWhile
  have hslice := slice_place (happend.symm ▸ h)
  rwa [happend] at hslice

theorem suffix_dropWhile (q : Char → Bool) (h : t <:+ s) : t.dropWhile q <:+ s :=
  (List.dropWhile_suffix q).trans h

/-- What a reader of the text answers, with the place of the rest; nothing where the tag breaks off. -/
def placed {α : Type} (s : Text) : Option (α × Text) → Except Fault (α × Nat)
  | none => .error .broken
  | some (a, r) => .ok (a, place s r)

theorem suffix_of_cut? {w : Text} {x : Text × Text} (h : t <:+ s) (hcut : Text.cut? w t = some x) :
    w ++ x.2 <:+ s := by
  have ht : t = x.1 ++ (w ++ x.2) := by
    rw [← List.append_assoc]
    exact Text.cut?_eq_some hcut
  exact suffix_of_append (ht ▸ h)

theorem quoted_place (hc : c.toNat < 128) (h : t <:+ s) :
    quoted (encode s) (octet c) (place s t) = placed s (Lexer.quoted? c t) := by
  rw [quoted, find?_octet hc h, Lexer.quoted?]
  cases hcut : Text.cut? [c] t with
  | none => rfl
  | some x =>
    have hr : c :: x.2 <:+ s := suffix_of_cut? h hcut
    obtain rfl : t = x.1 ++ c :: x.2 := by simpa using Text.cut?_eq_some hcut
    simp only [Option.map_some, slice_place h, Except.map, ← place_ascii hc hr]
    rfl

def assigned? : Text → Option (Option Text × Text)
  | [] => none
  | c :: u =>
    if c = '"' || c = '\'' then Lexer.quoted? c u
    else some (some ((c :: u).takeWhile Lexer.isBareValueChar), (c :: u).dropWhile Lexer.isBareValueChar)

theorem value?_eq (t : Text) : Lexer.value? t =
    if (t.dropWhile Text.isMarkupSpace).head? = some '=' then
      assigned? ((t.dropWhile Text.isMarkupSpace).tail.dropWhile Text.isMarkupSpace)
    else some (none, t) := by
  unfold Lexer.value?
  split
  · rename_i u e
    rw [e, List.head?_cons, if_pos rfl, List.tail_cons]
    split
    · rename_i e
      rw [e]
      rfl
    · rename_i e
      rw [e]
      rfl
    · rename_i e
      rw [e]
      rfl
    · rename_i h1 h2 h3
      cases hu : u.dropWhile Text.isMarkupSpace with
      | nil => exact absurd hu h1
      | cons d v =>
        have hdouble : d ≠ '"' := fun e => h2 v (e ▸ hu)
        have hsingle : d ≠ '\'' := fun e => h3 v (e ▸ hu)
        simp [assigned?, hdouble, hsingle]
  · rename_i h
    rw [if_neg]
    intro e
    obtain ⟨u, hu⟩ := List.head?_eq_some_iff.1 e
    exact h u hu

theorem value_place (h : t <:+ s) : value (encode s) (place s t) = placed s (Lexer.value? t) := by
  have ht := suffix_dropWhile Text.isMarkupSpace h
  rw [value, skip_place agrees_isSpace h, head_place ht, value?_eq]
  simp only [head_eq_octet (d := '=') (by decide)]
  generalize t.dropWhile Text.isMarkupSpace = rest at ht
  split
  · rename_i e
    obtain ⟨u, rfl⟩ := List.head?_eq_some_iff.1 e
    have hu := suffix_dropWhile Text.isMarkupSpace (suffix_of_cons ht)
    rw [← place_ascii (by decide) ht, skip_place agrees_isSpace (suffix_of_cons ht), head_place hu,
      List.tail_cons]
    generalize u.dropWhile Text.isMarkupSpace = v at hu
    cases v with
    | nil => rfl
    | cons d v =>
      obtain ⟨b, hb, hall⟩ := head_octet d v
      have hquote := hall ((agrees_octet (d := '"') (by decide)).or (agrees_octet (d := '\'') (by decide)))
      rw [hb, assigned?]
      dsimp only
      rw [hquote]
      split
      · rename_i e
        have hd : d.toNat < 128 := by
          simp only [Bool.or_eq_true, decide_eq_true_eq] at e
          rcases e with rfl | rfl <;> decide
        obtain rfl : b = octet d := by simpa using hall (agrees_octet hd)
        rw [← place_ascii hd hu]
        exact quoted_place hd (suffix_of_cons hu)
      · rw [skip_place agrees_isBareValueOctet hu, slice_skip _ hu]
        rfl
  · rfl

theorem gap_place (h : t <:+ s) (closing : Bool) : gap (encode s) closing (place s t) =
    (closing || (decide ((t.takeWhile Lexer.isGap).getLast? = some '/') &&
      decide ((t.dropWhile Lexer.isGap).head? = some '>')), place s (t.dropWhile Lexer.isGap)) := by
  induction t generalizing closing with
  | nil =>
    rw [gap]
    split
    · simp
    · rename_i e
      rw [head_place h] at e
      simp [encode] at e
  | cons c u ih =>
    obtain ⟨b, hb, hall⟩ := head_octet c u
    have hgap : (isSpace b || decide (b = octet '/')) = Lexer.isGap c :=
      hall (agrees_isSpace.or (agrees_octet (d := '/') (by decide)))
    have hslash := hall (agrees_octet (d := '/') (by decide))
    rw [gap]
    split
    · rename_i e
      simp [head_place h, hb] at e
    · rename_i b' e
      obtain rfl : b = b' := by simpa [head_place h, hb] using e
      rw [hgap, hslash]
      cases hc : Lexer.isGap c with
      | false => simp [hc]
      | true =>
        have hascii : c.toNat < 128 := by
          simp only [Lexer.isGap, Text.isMarkupSpace, Bool.or_eq_true, beq_iff_eq,
            decide_eq_true_eq] at hc
          rcases hc with ((((rfl | rfl) | rfl) | rfl) | rfl) | rfl <;> decide
        have hu := suffix_of_cons h
        rw [if_pos rfl, ← place_ascii hascii h, head_place hu, ih hu,
          List.takeWhile_cons_of_pos hc, List.dropWhile_cons_of_pos hc]
        simp only [head_eq_octet (d := '>') (by decide)]
        congr 1
        cases u with
        | nil => simp
        | cons d v =>
          cases hd : Lexer.isGap d with
          | false => simp [hd]
          | true =>
            -- the gap goes on, so no `>` follows and a slash here does not count
            have hne : d ≠ '>' := by
              rintro rfl
              exact absurd hd (by decide)
            simp [hd, hne]

theorem isAttributeNameChar_of_not_ascii {c : Char} (h : ¬ c.toNat < 128) :
    Lexer.isAttributeNameChar c = true := by
  have hne {d : Char} (hd : d.toNat < 128) : c ≠ d := fun e => h (e ▸ hd)
  simp only [Lexer.isAttributeNameChar, Lexer.isNameChar, Text.isMarkupSpace, Bool.and_eq_true,
    Bool.not_eq_true', Bool.or_eq_false_iff, beq_eq_false_iff_ne, decide_eq_true_eq]
  repeat' constructor
  all_goals exact hne (by decide)

theorem attributes_step (h : t <:+ s) (ht : t.dropWhile Lexer.isGap = c :: u) (hc : c ≠ '>')
    (seen : List Attribute) : attributes (encode s) seen false (place s t) =
      match placed s (Lexer.value? (u.dropWhile Lexer.isAttributeNameChar)) with
      | .error e => .error e
      | .ok (v, k) => attributes (encode s)
          (add seen ⟨Text.lower (c :: u.takeWhile Lexer.isAttributeNameChar), v⟩) false k := by
  have hcu : c :: u <:+ s := ht ▸ suffix_dropWhile Lexer.isGap h
  have hu := suffix_of_cons hcu
  obtain ⟨b, hb, hall⟩ := head_octet c u
  have hclose : b ≠ octet '>' := by
    have hall := hall (agrees_octet (d := '>') (by decide))
    simpa [hc] using hall
  have hname : slice (encode s) (place s (c :: u))
      (place s (u.dropWhile Lexer.isAttributeNameChar)) =
        .ok (c :: u.takeWhile Lexer.isAttributeNameChar) := by
    have happend : c :: u.takeWhile Lexer.isAttributeNameChar ++
        u.dropWhile Lexer.isAttributeNameChar = c :: u := by simp
    have hslice := slice_place (happend.symm ▸ hcu)
    rwa [happend] at hslice
  have hgap : gap (encode s) false (place s t) = (false, place s (c :: u)) := by
    rw [gap_place h, ht]
    simp [hc]
  rw [attributes, hgap]
  split
  · rename_i e
    rw [head_place hcu, hb] at e
    cases e
  · rename_i b' e
    obtain rfl : b = b' := by simpa [head_place hcu, hb] using e
    -- the first octet of a name is taken unseen, so the loop may start within a character
    rw [if_neg hclose, skip_next agrees_isAttributeNameOctet
      (fun _ => isAttributeNameChar_of_not_ascii) hcu]
    dsimp only
    rw [hname]
    dsimp only
    rw [← value_place (suffix_dropWhile _ hu)]
    split
    · rename_i e
      rw [e]
    · rename_i e
      rw [e]

theorem attributes_place (h : t <:+ s) (seen : List Attribute) :
    attributes (encode s) seen false (place s t) =
      match Lexer.attributes? t with
      | none => .error .broken
      | some (l, closing, r) => .ok (l.foldl add seen, closing, place s r) := by
  fun_induction Lexer.attributes? t generalizing seen with
  | case1 t ht =>
    rw [attributes, gap_place h, ht]
    split
    · rfl
    · rename_i e
      rw [head_place List.nil_suffix] at e
      simp [encode] at e
  | case2 t u ht =>
    have hu : '>' :: u <:+ s := ht ▸ suffix_dropWhile Lexer.isGap h
    have hclose : octet '>' = octet '>' := rfl
    rw [attributes, gap_place h, ht]
    split
    · rename_i e
      rw [head_place hu, (head_eq_octet (by decide) _).2 rfl] at e
      cases e
    · rename_i b e
      obtain rfl : octet '>' = b := by
        rw [head_place hu, (head_eq_octet (by decide) _).2 rfl] at e
        exact Option.some.inj e
      rw [if_pos hclose, ← place_ascii (by decide) hu]
      simp
  | case3 t c u ht hc hv =>
    rw [attributes_step h ht hc, hv]
    rfl
  | case4 t c u ht hc v r hv ih =>
    have hu : u <:+ s := suffix_of_cons (ht ▸ suffix_dropWhile Lexer.isGap h)
    have hr : r <:+ s := (Lexer.value?_suffix hv).trans (suffix_dropWhile _ hu)
    rw [attributes_step h ht hc, hv]
    dsimp only [placed]
    rw [ih hr]
    cases Lexer.attributes? r <;> rfl

theorem foldl_add (l seen : List Attribute) : l.foldl add seen =
    seen ++ (Lexer.firstOfEach l).filter fun a => !seen.any fun b => b.name = a.name := by
  induction l generalizing seen with
  | nil => simp [Lexer.firstOfEach]
  | cons a l ih =>
    rw [List.foldl_cons, ih, Lexer.firstOfEach, add]
    -- what has the name of `a` is left out for one of `seen` already, or for `a` from here on
    cases hseen : seen.any fun b => decide (b.name = a.name) with
    | true =>
      obtain ⟨b, hb, hname⟩ := List.any_eq_true.1 hseen
      rw [if_pos rfl, List.filter_cons_of_neg (by simp [hseen]), List.filter_filter]
      congr 1
      refine List.filter_congr fun d _ => ?_
      by_cases hd : d.name = a.name
      · have hmem : seen.any (fun b => decide (b.name = d.name)) = true := by rw [hd]; exact hseen
        simp [hmem]
      · simp [hd]
    | false =>
      rw [if_neg Bool.false_ne_true, List.filter_cons_of_pos (by simp [hseen]), List.filter_filter,
        List.append_assoc, List.singleton_append]
      congr 2
      refine List.filter_congr fun d _ => ?_
      simp [Bool.and_comm, eq_comm]

theorem foldl_add_nil (l : List Attribute) : l.foldl add [] = Lexer.firstOfEach l := by
  rw [foldl_add, List.nil_append]
  exact List.filter_eq_self.2 fun _ _ => rfl

/-- What a reader of one token answers, between the places. -/
def spanned (s t : Text) (x : Token × Text) : Except Fault Spanned :=
  .ok ⟨x.1, place s t, place s x.2⟩

theorem startTag_place (h : '<' :: t <:+ s) :
    startTag (encode s) (place s ('<' :: t)) = spanned s ('<' :: t) (Lexer.startTag t) := by
  have ht := suffix_of_cons h
  rw [startTag, ← place_ascii (by decide) h, skip_place agrees_isNameOctet ht, slice_skip _ ht]
  dsimp only
  rw [attributes_place (suffix_dropWhile _ ht), Lexer.startTag]
  cases Lexer.attributes? (t.dropWhile Lexer.isNameChar) with
  | none => rfl
  | some x =>
    dsimp only
    rw [foldl_add_nil]
    rfl

theorem find?_close (h : t <:+ s) : find? (encode s) (encode ">") (place s t) =
    (Text.cut? ">" t).map fun x => place s ('>' :: x.2) := find?_octet (by decide) h

theorem place_close {x : Text × Text} (h : t <:+ s) (hcut : Text.cut? ">" t = some x) :
    place s x.2 = place s ('>' :: x.2) + 1 :=
  place_ascii (by decide) (suffix_of_cut? h hcut)

theorem endTag_place (h : '<' :: '/' :: t <:+ s) :
    endTag (encode s) (place s ('<' :: '/' :: t)) = spanned s ('<' :: '/' :: t) (Lexer.endTag t) := by
  have hslash := suffix_of_cons h
  have ht := suffix_of_cons hslash
  have hstart : place s t = place s ('<' :: '/' :: t) + 2 := by
    rw [place_ascii (by decide) hslash, place_ascii (by decide) h]
  have hend := suffix_dropWhile Lexer.isNameChar ht
  rw [endTag, ← hstart, skip_place agrees_isNameOctet ht, slice_skip _ ht, find?_close hend, Lexer.endTag]
  cases hcut : Text.cut? ">" (t.dropWhile Lexer.isNameChar) with
  | none => rfl
  | some x => exact congrArg (fun n => Except.ok (Spanned.mk _ _ n)) (place_close hend hcut).symm

theorem comment_place (h : '<' :: '!' :: '-' :: '-' :: t <:+ s) :
    comment (encode s) (place s ('<' :: '!' :: '-' :: '-' :: t)) =
      spanned s ('<' :: '!' :: '-' :: '-' :: t) (Lexer.comment t) := by
  have ht : t <:+ s := suffix_of_append (w := "<!--") h
  have hstart : place s t = place s ('<' :: '!' :: '-' :: '-' :: t) + 4 :=
    place_append (w := "<!--") h
  have hfind : find? (encode s) (encode "-->") (place s t) =
      (Text.cut? "-->" t).map fun x => place s ("-->" ++ x.2) := find?_place (by decide) ht
  rw [comment, ← hstart, hfind, Lexer.comment]
  cases hcut : Text.cut? "-->" t with
  | none => rfl
  | some x =>
    have hclose : place s x.2 = place s ("-->" ++ x.2) + 3 := place_append (suffix_of_cut? ht hcut)
    have hbody : t = x.1 ++ ("-->" ++ x.2) := by
      rw [← List.append_assoc]
      exact Text.cut?_eq_some hcut
    have hslice := slice_place (hbody ▸ ht)
    rw [← hbody] at hslice
    rw [Option.map_some]
    dsimp only
    rw [hslice, ← hclose]
    rfl

theorem bogus_place (hc : c ≠ '>') (h : '<' :: c :: t <:+ s) :
    .ok (bogus (encode s) (place s ('<' :: c :: t))) = spanned s ('<' :: c :: t) (Lexer.bogus t) := by
  have hcons {d : Char} {u : Text} (hd : '>' ≠ d) :
      Text.cut? ">" (d :: u) = (Text.cut? ">" u).map fun x => (d :: x.1, x.2) := by
    simp [Text.cut?, Text.dropStart?, hd]
  have ht := suffix_of_cons (suffix_of_cons h)
  rw [bogus, find?_close h, hcons (by decide), hcons (Ne.symm hc), Lexer.bogus]
  cases hcut : Text.cut? ">" t with
  | none => rfl
  | some x => exact congrArg (fun n => Except.ok (Spanned.mk _ _ n)) (place_close ht hcut).symm

theorem second_place (hc : c.toNat < 128) (h : c :: t <:+ s) :
    (encode s)[place s (c :: t) + 1]? = (encode t).head? := by
  rw [← place_ascii hc h, head_place (suffix_of_cons h)]

theorem third_place {d : Char} (hc : c.toNat < 128) (hd : d.toNat < 128) (h : c :: d :: t <:+ s) :
    (encode s)[place s (c :: d :: t) + 2]? = (encode t).head? := by
  have hnext := second_place hd (suffix_of_cons h)
  rwa [place_ascii hc h] at hnext

theorem startsMarkup_place (h : '<' :: t <:+ s) :
    startsMarkup (encode s) (place s ('<' :: t)) = Lexer.opensMarkup t := by
  rw [startsMarkup, second_place (by decide) h]
  cases t with
  | nil => rfl
  | cons d u =>
    obtain ⟨b, hb, hall⟩ := head_octet d u
    have hstart := hall ((agrees_isLetter.or (agrees_octet (d := '!') (by decide))).or
      (agrees_octet (d := '?') (by decide)))
    have hslash := hall (agrees_octet (d := '/') (by decide))
    rw [hb]
    dsimp only
    rw [hstart, hslash]
    by_cases hd : d = '/'
    · subst d
      rw [third_place (by decide) (by decide) h,
        (agrees_isLetter.or (agrees_octet (d := '>') (by decide))).head]
      cases u with
      | nil => rfl
      | cons e v => simp [Lexer.opensMarkup, Lexer.startsWithLetter]
    · simp [Lexer.opensMarkup, hd]

theorem opensAt_place (h : c :: t <:+ s) :
    opensAt (encode s) (place s (c :: t)) = (decide (c = '<') && Lexer.opensMarkup t) := by
  have hopen : decide ((encode s)[place s (c :: t)]? = some (octet '<')) = decide (c = '<') := by
    rw [head_place h, decide_eq_decide, head_eq_octet (by decide)]
    simp
  rw [opensAt, hopen]
  by_cases e : c = '<'
  · subst e
    rw [startsMarkup_place h]
  · rw [decide_eq_false e, Bool.false_and, Bool.false_and]

theorem markup_place (h : '<' :: t <:+ s) :
    markup (encode s) (place s ('<' :: t)) = spanned s ('<' :: t) (Lexer.markup t) := by
  have hcomment : (encode "<!--").isPrefixOf ((encode s).drop (place s ('<' :: t))) =
      (Text.dropStart? "!--" t).isSome := by
    rw [drop_place h]
    exact isPrefixOf_encode (w := "<!--") (by decide) _
  rw [markup, hcomment, second_place (by decide) h]
  simp only [head_eq_octet (d := '!') (by decide), head_eq_octet (d := '?') (by decide),
    head_eq_octet (d := '/') (by decide)]
  fun_cases Lexer.markup t with
  | case1 u => exact comment_place h
  | case2 u hu =>
    have hd : (Text.dropStart? "!--" ('!' :: u)).isSome = false := by
      cases hr : Text.dropStart? "!--" ('!' :: u) with
      | none => rfl
      | some r => exact absurd (List.cons.inj (Text.dropStart?_eq_some hr)).2 (hu r)
    rw [hd]
    exact bogus_place (by decide) h
  | case3 u => exact bogus_place (by decide) h
  | case4 u hu =>
    have hletter : (encode s)[place s ('<' :: '/' :: u) + 2]?.any isLetter = true := by
      rw [third_place (by decide) (by decide) h, agrees_isLetter.head]
      cases u with
      | nil => exact absurd hu Bool.false_ne_true
      | cons e v => exact hu
    rw [hletter]
    exact endTag_place h
  | case5 u hu =>
    have hletter : (encode s)[place s ('<' :: '/' :: u) + 2]?.any isLetter = false := by
      rw [third_place (by decide) (by decide) h, agrees_isLetter.head]
      cases u with
      | nil => rfl
      | cons e v => exact Bool.eq_false_iff.2 hu
    rw [hletter]
    exact bogus_place (by decide) h
  | case6 t _ hbang hquestion hslash =>
    have hne {d : Char} (hd : ∀ u, t ≠ d :: u) : t.head? ≠ some d := by
      intro e
      obtain ⟨u, hu⟩ := List.head?_eq_some_iff.1 e
      exact hd u hu
    have hd : (Text.dropStart? "!--" t).isSome = false := by
      cases hr : Text.dropStart? "!--" t with
      | none => rfl
      | some r => exact absurd (Text.dropStart?_eq_some hr) (hbang _)
    rw [hd, if_neg Bool.false_ne_true, decide_eq_false (hne hbang), decide_eq_false (hne hquestion),
      Bool.false_or, if_neg Bool.false_ne_true, if_neg (hne hslash)]
    exact startTag_place h

theorem rest_eq_plain (t : Text) :
    rest (fun u => u.head? = some '<' && Lexer.opensMarkup u.tail) t = (Lexer.plain t).2 := by
  induction t with
  | nil => rfl
  | cons c u ih =>
    rw [rest, Lexer.plain, ih]
    simp only [List.head?_cons, List.tail_cons, Option.some.injEq]
    split <;> rfl

theorem plain_place (h : c :: t <:+ s) : plain (encode s) (place s (c :: t)) =
    spanned s (c :: t) (.text (c :: (Lexer.plain t).1), (Lexer.plain t).2) := by
  have ht := suffix_of_cons h
  -- a `<` is an octet of its own
  have hinside {c : Char} {u : Text} (hcu : c :: u <:+ s) {k : Nat}
      (hk : k < (String.utf8EncodeChar c).length) (hc : c ≠ '<') :
      (!opensAt (encode s) (place s (c :: u) + k)) = true := by
    have hoctet := agrees_octet (d := '<') (by decide) c _ (List.getElem_mem hk)
    rw [opensAt, getElem?_octets hcu hk]
    have hne : (String.utf8EncodeChar c)[k] ≠ octet '<' := by simpa [hc] using hoctet
    simp [hne]
  have hloop : advance (encode s) (fun j => !opensAt (encode s) j) (place s t) =
      place s (Lexer.plain t).2 := by
    rw [← rest_eq_plain]
    refine advance_place ?_ ?_ ht
    · intro c u hcu hs
      rw [opensAt_place hcu]
      simpa using hs
    · intro c u hcu hs k hk
      by_cases hc : c = '<'
      · subst hc
        obtain rfl : k = 0 := by
          rw [octets_ascii (by decide), List.length_singleton] at hk
          omega
        rw [Nat.add_zero, opensAt_place hcu]
        simpa using hs
      · exact hinside hcu hk hc
  have hfirst : advance (encode s) (fun j => !opensAt (encode s) j) (place s (c :: t) + 1) =
      advance (encode s) (fun j => !opensAt (encode s) j) (place s t) := by
    refine advance_next h fun k hpos hk => hinside h hk ?_
    rintro rfl
    rw [octets_ascii (by decide), List.length_singleton] at hk
    omega
  have happend : c :: (Lexer.plain t).1 ++ (Lexer.plain t).2 = c :: t :=
    congrArg (c :: ·) (Lexer.plain_append t)
  have hslice := slice_place (happend.symm ▸ h)
  rw [happend] at hslice
  rw [plain, hfirst, hloop, hslice]
  rfl

theorem token_place (h : c :: t <:+ s) :
    token (encode s) (place s (c :: t)) = spanned s (c :: t) (Lexer.next c t) := by
  rw [token, opensAt_place h, Lexer.next]
  split
  · rename_i e
    obtain ⟨hc, _⟩ := Bool.and_eq_true_iff.1 e
    obtain rfl := of_decide_eq_true hc
    exact markup_place h
  · exact plain_place h

theorem take_lower_iff {name : Text} (hn : ∀ a ∈ name, isTagChar a = true) (t : Text) :
    ((encode t).take (encode name).length).map lowerOctet = (encode name).map lowerOctet ↔
      (Text.dropStartUnder? Char.toLower name t).isSome = true := by
  induction name generalizing t with
  | nil => simp [Text.dropStartUnder?, encode]
  | cons a name ih =>
    obtain ⟨ha, hn⟩ := List.forall_mem_cons.1 hn
    have hascii := toNat_lt_of_isTagChar ha
    have hlower {c : Char} (hc : c.toNat < 128) : lowerOctet (octet c) = octet c.toLower :=
      Text.forall_ascii (P := fun c => lowerOctet (octet c) = octet c.toLower) (by decide) hc
    have hself : a.toLower = a := (isTagChar_spec ha).2.1
    rw [encode_ascii_cons hascii, List.length_cons, List.map_cons, hlower hascii, hself]
    cases t with
    | nil => simp [Text.dropStartUnder?, encode]
    | cons c t =>
      by_cases hc : c.toNat < 128
      · have hsmall : c.toLower.toNat < 128 :=
          Text.forall_ascii (P := fun c => c.toLower.toNat < 128) (by decide) hc
        rw [encode_ascii_cons hc, List.take_succ_cons, List.map_cons, hlower hc, List.cons.injEq,
          octet_inj hsmall hascii, ih hn, Text.dropStartUnder?]
        by_cases e : a = c.toLower
        · simp [e]
        · simp [e, Ne.symm e]
      · obtain ⟨b, r, e, hb, _⟩ := octets_not_ascii hc
        have hbig : lowerOctet b ≠ octet a := by
          have hle : ¬ b ≤ 0x5A := by
            rw [UInt8.le_iff_toNat_le, show (0x5A : UInt8).toNat = 90 from rfl]
            omega
          rw [lowerOctet, decide_eq_false hle, Bool.and_false, if_neg Bool.false_ne_true]
          rintro rfl
          rw [toNat_octet hascii] at hb
          omega
        have hne : a ≠ c.toLower := by
          rw [Text.toLower_of_not_ascii hc]
          rintro rfl
          exact hc hascii
        rw [encode_cons, e, List.cons_append, List.take_succ_cons, List.map_cons,
          Text.dropStartUnder?, if_neg hne]
        simp [hbig]

theorem length_encode_of_ascii {w : Text} (hw : ∀ c ∈ w, c.toNat < 128) :
    (encode w).length = w.length := by
  induction w with
  | nil => rfl
  | cons c w ih =>
    obtain ⟨hc, hw⟩ := List.forall_mem_cons.1 hw
    rw [encode_ascii_cons hc, List.length_cons, ih hw, List.length_cons]

theorem place_of_dropStartUnder? {name r : Text} (hn : ∀ a ∈ name, isTagChar a = true)
    (h : t <:+ s) (hr : Text.dropStartUnder? Char.toLower name t = some r) :
    place s r = place s t + (encode name).length ∧ r <:+ s := by
  obtain ⟨q, hq, rfl⟩ := Text.dropStartUnder?_eq_some hr
  have hname : ∀ a ∈ name, a.toNat < 128 := fun a ha => toNat_lt_of_isTagChar (hn a ha)
  have hascii : ∀ c ∈ q, c.toNat < 128 := by
    intro c hc
    have hsmall := hname c.toLower (hq ▸ List.mem_map_of_mem hc)
    by_contra hbig
    rw [Text.toLower_of_not_ascii hbig] at hsmall
    exact hbig hsmall
  have hlength : (encode q).length = (encode name).length := by
    rw [length_encode_of_ascii hascii, length_encode_of_ascii hname, ← hq, List.length_map]
  rw [place_append h, hlength]
  exact ⟨rfl, suffix_of_append h⟩

theorem closesAt_place {name : Text} (hn : ∀ a ∈ name, isTagChar a = true)
    (h : '<' :: '/' :: t <:+ s) :
    closesAt (encode s) name (place s ('<' :: '/' :: t)) = Lexer.closes name ('<' :: '/' :: t) := by
  have hslash := suffix_of_cons h
  have ht := suffix_of_cons hslash
  have hstart : place s t = place s ('<' :: '/' :: t) + 2 := by
    rw [place_ascii (by decide) hslash, place_ascii (by decide) h]
  have hdrop : Text.dropStart? "</" ('<' :: '/' :: t) = some t := Text.dropStart?_append "</" t
  have htake := take_lower_iff hn t
  rw [closesAt, ← hstart, drop_place ht, Lexer.closes, hdrop, Option.bind_some]
  cases hr : Text.dropStartUnder? Char.toLower name t with
  | none =>
    rw [hr] at htake
    have hne : decide (((encode t).take (encode name).length).map lowerOctet =
        (encode name).map lowerOctet) = false := decide_eq_false fun e => Bool.false_ne_true (htake.1 e)
    rw [hne, Bool.and_false, Bool.false_and]
  | some r =>
    rw [hr] at htake
    obtain ⟨hplace, hsuffix⟩ := place_of_dropStartUnder? hn ht hr
    have hle : place s r ≤ (encode s).length := Nat.sub_le _ _
    rw [← hplace, head_place hsuffix, decide_eq_true hle, decide_eq_true (htake.2 rfl), Bool.true_and,
      Bool.true_and]
    cases r with
    | nil => rfl
    | cons c r =>
      obtain ⟨b, hb, hall⟩ := head_octet c r
      rw [hb]
      exact hall ((agrees_isSpace.or (agrees_octet (d := '>') (by decide))).or
        (agrees_octet (d := '/') (by decide)))

theorem rest_eq_rawBody (name t : Text) : rest (Lexer.closes name) t = (Lexer.rawBody name t).2 := by
  induction t with
  | nil => rfl
  | cons c u ih =>
    rw [rest, Lexer.rawBody, ih]
    split <;> rfl

theorem rest_rest {p q : Text → Bool} (h : ∀ u, p u = true → q u = true) (t : Text) :
    rest p (rest q t) = rest p t := by
  induction t with
  | nil => rfl
  | cons c u ih =>
    rw [rest]
    split
    · rfl
    · rename_i hq
      rw [ih, rest, if_neg fun hp => hq (h _ hp)]

theorem dropStart?_of_closes {name u : Text} (h : Lexer.closes name u = true) :
    (Text.dropStart? "</" u).isSome = true := by
  cases hd : Text.dropStart? "</" u with
  | some r => rfl
  | none =>
    rw [Lexer.closes, hd] at h
    exact absurd h Bool.false_ne_true

theorem findEndTag?_place {name : Text} (hn : ∀ a ∈ name, isTagChar a = true) (h : t <:+ s) :
    (findEndTag? (encode s) name (place s t)).getD (encode s).length =
      place s (Lexer.rawBody name t).2 := by
  -- both searches go on behind a `</` that closes nothing, so the induction is on the length
  induction hlength : t.length using Nat.strong_induction_on generalizing t with
  | _ n ih =>
    have hfind : find? (encode s) (encode "</") (place s t) =
        (Text.cut? "</" t).map fun x => place s ("</" ++ x.2) := find?_place (by decide) h
    have hrest : (Lexer.rawBody name t).2 = rest (Lexer.closes name)
        (((Text.cut? "</" t).map fun x => '<' :: '/' :: x.2).getD []) := by
      rw [← rest_eq_rawBody, ← rest_rest (fun _ => dropStart?_of_closes)]
      exact congrArg _ (rest_eq_cut? t)
    rw [hrest, findEndTag?]
    cases hcut : Text.cut? "</" t with
    | none =>
      rw [hcut] at hfind
      split
      · rfl
      · rename_i e
        rw [hfind] at e
        cases e
    | some x =>
      rw [hcut] at hfind
      have hx : '<' :: '/' :: x.2 <:+ s := suffix_of_cut? h hcut
      have hslash := suffix_of_cons hx
      have hshort : x.2.length < n := by
        rw [← hlength, Text.cut?_eq_some hcut]
        simp only [List.length_append]
        have htwo : ("</" : Text).length = 2 := rfl
        omega
      split
      · rename_i e
        rw [hfind] at e
        cases e
      · rename_i j e
        obtain rfl : place s ('<' :: '/' :: x.2) = j := Option.some.inj (hfind.symm.trans e)
        change _ = place s (rest (Lexer.closes name) ('<' :: '/' :: x.2))
        rw [closesAt_place hn hx, rest]
        split
        · rfl
        · have hnext : place s x.2 = place s ('<' :: '/' :: x.2) + 2 := by
            rw [place_ascii (by decide) hslash, place_ascii (by decide) hx]
          have hclose : Lexer.closes name ('/' :: x.2) = false :=
            closes_cons_eq_false (.inl (by decide))
          rw [← hnext, ih _ hshort (suffix_of_cons hslash) rfl, ← rest_eq_rawBody, rest, hclose,
            if_neg Bool.false_ne_true]

theorem rawEnd_place {name : Text} (hn : ∀ a ∈ name, isTagChar a = true) (h : t <:+ s) :
    rawEnd (encode s) name (place s t) = place s (Lexer.rawText name t).2 := by
  rw [rawEnd, Lexer.rawText]
  split
  · rfl
  · exact findEndTag?_place hn h

theorem next_place {raw : Option Text} (hraw : ∀ name ∈ raw, ∀ a ∈ name, isTagChar a = true)
    (h : c :: t <:+ s) : next (encode s) raw (place s (c :: t)) =
      (spanned s (c :: t) (Lexer.nextIn raw c t)).map some := by
  cases raw with
  | none => rw [next, if_pos (place_lt h), Lexer.nextIn, token_place h]
  | some name =>
    have happend := Lexer.rawText_append name (c :: t)
    rw [next, if_pos (place_lt h), Lexer.nextIn, rawEnd_place (hraw name rfl) h]
    generalize Lexer.rawText name (c :: t) = found at happend
    obtain ⟨body, r⟩ := found
    cases body with
    | nil =>
      obtain rfl : r = c :: t := happend
      rw [if_pos rfl, token_place h]
    | cons b body =>
      have hr : b :: body ++ r <:+ s := happend ▸ h
      have hslice := slice_place hr
      have hplace := place_append hr
      have hpos : 0 < (encode (b :: body)).length := by
        have hpos := List.length_pos_iff.2 (String.utf8EncodeChar_ne_nil (c := b))
        rw [encode_cons, List.length_append]
        omega
      rw [happend] at hslice hplace
      rw [if_neg (by dsimp only; omega), hslice]
      rfl

theorem next_end (raw : Option Text) : next (encode s) raw (place s []) = .ok none := by
  unfold next
  rw [place_nil, if_neg (Nat.lt_irrefl _)]

def Spanned.ofSpan (x : Lexeme × Nat × Nat) : Spanned := ⟨x.1.token, x.2.1, x.2.2⟩

theorem tagChar_of_rawAfter {t : Token} {name : Text} (h : name ∈ Lexer.rawAfter t) :
    ∀ a ∈ name, isTagChar a = true := by
  have hall : ∀ n ∈ rawTextElements, ∀ a ∈ n, isTagChar a = true := by decide
  unfold Lexer.rawAfter at h
  split at h
  · split at h
    · rename_i hmem
      obtain rfl := Option.some.inj h
      exact hall _ (List.contains_iff_mem.1 hmem)
    · cases h
  · cases h

theorem lexFrom_place {raw : Option Text} (hraw : ∀ name ∈ raw, ∀ a ∈ name, isTagChar a = true)
    (h : t <:+ s) : lexFrom (encode s) raw (place s t) =
      .ok ((spans (place s t) (Markup.lexFrom raw t)).map Spanned.ofSpan) := by
  fun_induction Markup.lexFrom raw t with
  | case1 raw =>
    rw [lexFrom]
    split
    · rename_i e
      rw [next_end] at e
      cases e
    · rfl
    · rename_i e
      rw [next_end] at e
      cases e
  | case2 raw c t ih =>
    have hsuffix : (Lexer.nextIn raw c t).2 <:+ c :: t :=
      (Lexer.nextIn_suffix raw c t).trans (List.suffix_cons c t)
    have hsource : upTo (c :: t) (Lexer.nextIn raw c t).2 ++ (Lexer.nextIn raw c t).2 = c :: t :=
      upTo_append hsuffix
    have hstop : place s (Lexer.nextIn raw c t).2 =
        place s (c :: t) + Text.byteLength (upTo (c :: t) (Lexer.nextIn raw c t).2) := by
      have hplace := place_append (hsource.symm ▸ h)
      rwa [hsource, length_encode] at hplace
    have hnext := next_place hraw h
    rw [lexFrom]
    split
    · rename_i e
      rw [hnext] at e
      cases e
    · rename_i e
      rw [hnext] at e
      cases e
    · rename_i x e
      rw [hnext] at e
      obtain rfl : ⟨(Lexer.nextIn raw c t).1, place s (c :: t), place s (Lexer.nextIn raw c t).2⟩ = x :=
        Option.some.inj (Except.ok.inj e)
      rw [ih (fun _ => tagChar_of_rawAfter) (hsuffix.trans h), spans, ← hstop]
      rfl

theorem lex_encode (s : Text) :
    lex (encode s) = .ok ((spans 0 (Markup.lex s)).map Spanned.ofSpan) := by
  have hraw : ∀ name ∈ (none : Option Text), ∀ a ∈ name, isTagChar a = true := by simp
  have h := lexFrom_place hraw (List.suffix_refl s)
  rwa [place_self] at h

def Spanned.octets (bytes : Bytes) (x : Spanned) : Bytes :=
  (bytes.drop x.start).take (x.stop - x.start)

/-- Each token starts where the one before it ends, takes at least one octet and ends where a
    character does, and the last one ends with the octets. -/
def Tiles (bytes : Bytes) : Nat → List Spanned → Prop
  | i, [] => i = bytes.length
  | i, x :: rest =>
    x.start = i ∧ x.start < x.stop ∧ isBoundary bytes x.stop = true ∧ Tiles bytes x.stop rest

theorem place_lt_of_suffix {r : Text} (h : c :: t <:+ s) (hr : r <:+ t) :
    place s (c :: t) < place s r := by
  have hpos := List.length_pos_iff.2 (String.utf8EncodeChar_ne_nil (c := c))
  have hcons := place_cons h
  have hle := length_le_of_suffix hr
  have hall := length_le_of_suffix (suffix_of_cons h)
  rw [place] at hcons ⊢
  rw [place] at hcons ⊢
  omega

theorem tiles_spans (raw : Option Text) (h : t <:+ s) :
    Tiles (encode s) (place s t) ((spans (place s t) (Markup.lexFrom raw t)).map Spanned.ofSpan) ∧
      ((spans (place s t) (Markup.lexFrom raw t)).map Spanned.ofSpan).flatMap
        (Spanned.octets (encode s)) = encode t := by
  fun_induction Markup.lexFrom raw t with
  | case1 raw => exact ⟨rfl, rfl⟩
  | case2 raw c t ih =>
    have hr := Lexer.nextIn_suffix raw c t
    have hsource : upTo (c :: t) (Lexer.nextIn raw c t).2 ++ (Lexer.nextIn raw c t).2 = c :: t :=
      upTo_append (hr.trans (List.suffix_cons c t))
    generalize (Lexer.nextIn raw c t).2 = r at hr hsource ih
    have hsuffix : r <:+ s := hr.trans (suffix_of_cons h)
    have hplace := place_append (hsource.symm ▸ h)
    rw [hsource] at hplace
    obtain ⟨htiles, hoctets⟩ := ih hsuffix
    have hone : (encode s).drop (place s (c :: t)) = encode (upTo (c :: t) r) ++ encode r := by
      rw [drop_place h, ← encode_append, hsource]
    rw [spans, ← length_encode, ← hplace]
    refine ⟨⟨rfl, place_lt_of_suffix h hr, isBoundary_place hsuffix, htiles⟩, ?_⟩
    have hhead : Spanned.octets (encode s)
        ⟨(Lexer.nextIn raw c t).1, place s (c :: t), place s r⟩ = encode (upTo (c :: t) r) := by
      rw [Spanned.octets, hone, hplace, Nat.add_sub_cancel_left]
      exact List.take_left
    rw [List.map_cons, List.flatMap_cons, hoctets]
    change Spanned.octets (encode s) ⟨(Lexer.nextIn raw c t).1, place s (c :: t), place s r⟩ ++ _ = _
    rw [hhead, ← encode_append, hsource]

/-- Every text in UTF-8 has its tokens, no slice cutting a character apart, and their spans tile it. -/
theorem lex_tiles (s : Text) : ∃ l, lex (encode s) = .ok l ∧ Tiles (encode s) 0 l ∧
    l.flatMap (Spanned.octets (encode s)) = encode s ∧ l.map Spanned.token = tokens s := by
  obtain ⟨htiles, hoctets⟩ := tiles_spans none (List.suffix_refl s)
  rw [place_self] at htiles hoctets
  refine ⟨_, lex_encode s, htiles, hoctets, ?_⟩
  have htoken (l : List Lexeme) (i : Nat) :
      ((spans i l).map Spanned.ofSpan).map Spanned.token = l.map Lexeme.token := by
    induction l generalizing i with
    | nil => rfl
    | cons x l ih => exact congrArg (x.token :: ·) (ih _)
  exact htoken (Markup.lex s) 0

end Folio.Markup.Octets
