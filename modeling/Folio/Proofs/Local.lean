import Folio.Proofs.Reread

set_option autoImplicit false

/-!
# Reading is local

A tag is read up to its `>` and no further, and a text or raw text up to a `<` whose next few
characters decide what begins there. So a token is read again if what stands behind it is exchanged
for something that begins alike.
-/
namespace Folio

namespace Text

theorem dropStart?_append_of_le {p x : Text} (h : p.length ≤ x.length) (y : Text) :
    dropStart? p (x ++ y) = (dropStart? p x).map (· ++ y) := by
  induction p generalizing x with
  | nil => rfl
  | cons a p ih =>
    cases x with
    | nil => simp at h
    | cons c x =>
      simp only [List.cons_append, dropStart?]
      split
      · exact ih (Nat.le_of_succ_le_succ h)
      · rfl

theorem cut?_of_dropStart? {p s r : Text} (h : dropStart? p s = some r) :
    cut? p s = some ([], r) := by
  cases s with
  | nil =>
    cases p with
    | nil =>
      obtain rfl : [] = r := Option.some.inj h
      rfl
    | cons a p => cases h
  | cons c s => rw [cut?, h]

theorem cut?_local {p s a b : Text} (h : cut? p s = some (a, b)) (b' : Text) :
    cut? p (a ++ p ++ b') = some (a, b') := by
  induction s generalizing a with
  | nil =>
    obtain ⟨rfl, rfl, rfl⟩ : p = [] ∧ [] = a ∧ [] = b := by simpa [cut?] using h
    exact cut?_of_dropStart? rfl
  | cons c s ih =>
    have hs := cut?_eq_some h
    rw [cut?] at h
    split at h
    · obtain ⟨rfl, rfl⟩ := Prod.mk.inj (Option.some.inj h)
      exact cut?_of_dropStart? (by rw [List.nil_append, dropStart?_append])
    · rename_i hnone
      obtain ⟨⟨a', b''⟩, hcut, e⟩ := Option.map_eq_some_iff.1 h
      obtain ⟨rfl, rfl⟩ := Prod.mk.inj e
      have hlong : p.length ≤ (c :: (a' ++ p)).length := by
        simp only [List.length_cons, List.length_append]
        omega
      have hbefore : dropStart? p (c :: (a' ++ p)) = none := by
        have hfull : c :: s = c :: (a' ++ p) ++ b'' := hs
        rw [hfull, dropStart?_append_of_le hlong] at hnone
        exact Option.map_eq_none_iff.1 hnone
      have hhere : dropStart? p (c :: (a' ++ p ++ b')) = none := by
        have e := dropStart?_append_of_le hlong b'
        rwa [hbefore] at e
      change cut? p (c :: (a' ++ p ++ b')) = _
      rw [cut?, hhere]
      exact congrArg (Option.map fun x : Text × Text => (c :: x.1, x.2)) (ih hcut)

end Text

namespace Markup.Lexer

theorem span_close {p : Char → Bool} (h : p '>' = false) (q r : Text) :
    (q ++ '>' :: r).takeWhile p = q.takeWhile p ∧
      (q ++ '>' :: r).dropWhile p = q.dropWhile p ++ '>' :: r := by
  induction q with
  | nil => simp [h]
  | cons c q ih =>
    by_cases hc : p c = true
    · simp [hc, ih]
    · simp [hc]

theorem head?_close (q r r' : Text) : (q ++ '>' :: r).head? = (q ++ '>' :: r').head? := by
  cases q <;> rfl

theorem span_local {p : Char → Bool} {s q r : Text} (h : s.dropWhile p = q ++ '>' :: r) (r' : Text) :
    (s.takeWhile p ++ (q ++ '>' :: r')).takeWhile p = s.takeWhile p ∧
      (s.takeWhile p ++ (q ++ '>' :: r')).dropWhile p = q ++ '>' :: r' := by
  have hstop := Text.head_dropWhile (p := p) s
  rw [h, head?_close q r r'] at hstop
  exact Text.span_append (fun _ hc => List.mem_takeWhile_imp hc) hstop

theorem quoted?_local {quote : Char} {s r : Text} {v : Option Text}
    (h : quoted? quote s = some (v, r)) :
    ∃ p, s = p ++ r ∧ ∀ r', quoted? quote (p ++ r') = some (v, r') := by
  obtain ⟨⟨a, b⟩, hcut, e⟩ := Option.map_eq_some_iff.1 h
  obtain ⟨rfl, rfl⟩ := Prod.mk.inj e
  refine ⟨a ++ [quote], Text.cut?_eq_some hcut, fun r' => ?_⟩
  rw [quoted?, Text.cut?_local hcut]
  rfl

theorem value?_unquoted {a b u : Text} {c : Char} (ha : ∀ c ∈ a, Text.isMarkupSpace c = true)
    (hb : ∀ c ∈ b, Text.isMarkupSpace c = true) (hu : u.head? = some c)
    (hspace : Text.isMarkupSpace c = false) (hq : ¬ (c = '"' ∨ c = '\'')) :
    value? (a ++ '=' :: (b ++ u)) =
      some (some (u.takeWhile isBareValueChar), u.dropWhile isBareValueChar) := by
  obtain ⟨u, rfl⟩ := List.head?_eq_some_iff.1 hu
  have hequals := (Text.span_append ha (t := '=' :: (b ++ c :: u)) (by simp; decide)).2
  have hvalue := (Text.span_append hb (t := c :: u) (by simpa using hspace)).2
  simp only [value?, hequals, hvalue]
  split
  · rename_i e
    cases e
  · rename_i e
    exact absurd (.inl (List.cons.inj e).1) hq
  · rename_i e
    exact absurd (.inr (List.cons.inj e).1) hq
  · rfl

theorem value?_cases (s : Text) : (s.dropWhile Text.isMarkupSpace).head? ≠ some '=' ∨
    ∃ a b u, s = a ++ '=' :: (b ++ u) ∧ (∀ c ∈ a, Text.isMarkupSpace c = true) ∧
      (∀ c ∈ b, Text.isMarkupSpace c = true) ∧ ∀ c ∈ u.head?, Text.isMarkupSpace c = false := by
  by_cases h : (s.dropWhile Text.isMarkupSpace).head? = some '='
  · obtain ⟨t, ht⟩ := List.head?_eq_some_iff.1 h
    refine .inr ⟨s.takeWhile Text.isMarkupSpace, t.takeWhile Text.isMarkupSpace,
      t.dropWhile Text.isMarkupSpace, ?_, fun _ hc => List.mem_takeWhile_imp hc,
      fun _ hc => List.mem_takeWhile_imp hc, Text.head_dropWhile t⟩
    rw [List.takeWhile_append_dropWhile, ← ht, List.takeWhile_append_dropWhile]
  · exact .inl h

theorem value?_local {s q r : Text} {v : Option Text} (h : value? s = some (v, q ++ '>' :: r)) :
    ∃ p, s = p ++ (q ++ '>' :: r) ∧
      ∀ r', value? (p ++ (q ++ '>' :: r')) = some (v, q ++ '>' :: r') := by
  rcases value?_cases s with hbare | ⟨a, b, u, rfl, ha, hb, hu⟩
  · rw [value?_bare hbare] at h
    obtain ⟨rfl, rfl⟩ := Prod.mk.inj (Option.some.inj h)
    refine ⟨[], rfl, fun r' => value?_bare ?_⟩
    have hspan (x : Text) := (span_close (p := Text.isMarkupSpace) (by decide) q x).2
    rwa [List.nil_append, hspan, head?_close _ r' r, ← hspan]
  have hsplit (p x : Text) : a ++ '=' :: (b ++ p) ++ x = a ++ '=' :: (b ++ (p ++ x)) := by simp
  cases u with
  | nil =>
    have hequals := (Text.span_append ha (t := '=' :: (b ++ [])) (by simp; decide)).2
    have hvalue := (Text.span_append hb hu).2
    simp only [value?, hequals, hvalue] at h
    cases h
  | cons c u =>
    by_cases hq : c = '"' ∨ c = '\''
    · rw [value?_quoted hq ha hb] at h
      obtain ⟨p, rfl, hp⟩ := quoted?_local h
      refine ⟨a ++ '=' :: (b ++ c :: p), (hsplit (c :: p) _).symm, fun r' => ?_⟩
      exact (congrArg value? (hsplit (c :: p) _)).trans ((value?_quoted hq ha hb _).trans (hp _))
    · have hspace := hu c rfl
      rw [value?_unquoted ha hb rfl hspace hq] at h
      obtain ⟨rfl, hrest⟩ := Prod.mk.inj (Option.some.inj h)
      have hw := List.takeWhile_append_dropWhile (p := isBareValueChar) (l := c :: u)
      rw [hrest] at hw
      refine ⟨a ++ '=' :: (b ++ (c :: u).takeWhile isBareValueChar), ?_, fun r' => ?_⟩
      · rw [hsplit, hw]
      · have hhead : ((c :: u).takeWhile isBareValueChar ++ (q ++ '>' :: r')).head? = some c := by
          rw [← List.append_assoc, head?_close _ r' r, List.append_assoc, hw]
          rfl
        obtain ⟨htake, hdrop⟩ := span_local hrest r'
        rw [hsplit, value?_unquoted ha hb hhead hspace hq, htake, hdrop]

theorem attributes?_local {s r : Text} {l : List Attribute} {closing : Bool}
    (h : attributes? s = some (l, closing, r)) :
    ∃ q, s = q ++ '>' :: r ∧ ∀ r', attributes? (q ++ '>' :: r') = some (l, closing, r') := by
  have hgaps (t : Text) : ∀ c ∈ t.takeWhile isGap, isGap c = true :=
    fun _ hc => List.mem_takeWhile_imp hc
  fun_induction attributes? s generalizing l closing r with
  | case1 => simp at h
  | case2 s t hs =>
    obtain ⟨rfl, rfl, rfl⟩ : [] = l ∧ _ = closing ∧ t = r := by simpa using h
    refine ⟨s.takeWhile isGap, ?_, attributes?_close (hgaps s)⟩
    rw [← hs, List.takeWhile_append_dropWhile]
  | case3 => simp at h
  | case4 s c t hs hclose v u hv ih =>
    obtain ⟨⟨rest, closing', r'⟩, hrest, e⟩ := Option.map_eq_some_iff.1 h
    obtain ⟨rfl, rfl, rfl⟩ : _ = l ∧ closing' = closing ∧ r' = r := by simpa using e
    obtain ⟨q, rfl, hq⟩ := ih hrest
    obtain ⟨p, hp, hvalue⟩ := value?_local hv
    have hname : ∀ d ∈ t.takeWhile isAttributeNameChar, isAttributeNameChar d = true :=
      fun _ hd => List.mem_takeWhile_imp hd
    have hstop := Text.head_dropWhile (p := isAttributeNameChar) t
    rw [hp] at hstop
    refine ⟨s.takeWhile isGap ++ c :: (t.takeWhile isAttributeNameChar ++ (p ++ q)), ?_, fun x => ?_⟩
    · have ht : t = t.takeWhile isAttributeNameChar ++ (p ++ (q ++ '>' :: r')) := by
        rw [← hp, List.takeWhile_append_dropWhile]
      have hfull : s = s.takeWhile isGap ++ c :: t := by rw [← hs, List.takeWhile_append_dropWhile]
      rw [List.append_assoc, List.cons_append, List.append_assoc, List.append_assoc, ← ht]
      exact hfull
    · rw [← List.append_assoc, head?_close (p ++ q) r' x, List.append_assoc] at hstop
      rw [List.append_assoc, List.cons_append, List.append_assoc, List.append_assoc,
        attributes?_cons (hgaps s) (Text.head_dropWhile s c (hs ▸ rfl)) hclose hname hstop (hvalue x),
        hq]
      rfl

/-- Whether a reader of a token stops at a `>` and looks at nothing behind it; what is never closed is
    read to the end. -/
def Stops (read : Text → Token × Text) (s : Text) : Prop :=
  read s = (.bogus, []) ∨
    ∃ q r t, s = q ++ '>' :: r ∧ ∀ r', read (q ++ '>' :: r') = (t, r')

theorem stops_startTag (s : Text) : Stops startTag s := by
  cases h : attributes? (s.dropWhile isNameChar) with
  | none => exact .inl (by rw [startTag, h])
  | some found =>
    obtain ⟨l, closing, r⟩ := found
    obtain ⟨q, hs, hread⟩ := attributes?_local h
    refine .inr ⟨s.takeWhile isNameChar ++ q, r,
      .startTag (Text.lower (s.takeWhile isNameChar)) (firstOfEach l) closing, ?_, fun r' => ?_⟩
    · rw [List.append_assoc, ← hs, List.takeWhile_append_dropWhile]
    · obtain ⟨htake, hdrop⟩ := span_local hs r'
      rw [List.append_assoc, startTag, hdrop, htake, hread]

theorem cut?_close {p s a r : Text} (h : Text.cut? (p ++ ">") s = some (a, r)) :
    ∃ q, s = q ++ '>' :: r ∧ ∀ r', Text.cut? (p ++ ">") (q ++ '>' :: r') = some (a, r') := by
  have hsplit (x : Text) : a ++ (p ++ ">") ++ x = (a ++ p) ++ '>' :: x := by simp
  exact ⟨a ++ p, (Text.cut?_eq_some h).trans (hsplit r), fun r' => hsplit r' ▸ Text.cut?_local h r'⟩

theorem stops_endTag (s : Text) : Stops endTag s := by
  cases h : Text.cut? ">" (s.dropWhile isNameChar) with
  | none => exact .inl (by rw [endTag, h])
  | some found =>
    obtain ⟨q, hs, hread⟩ := cut?_close (p := []) h
    refine .inr ⟨s.takeWhile isNameChar ++ q, found.2, .endTag (Text.lower (s.takeWhile isNameChar)),
      ?_, fun r' => ?_⟩
    · rw [List.append_assoc, ← hs, List.takeWhile_append_dropWhile]
    · have hcut : Text.cut? ">" (q ++ '>' :: r') = some (found.1, r') := hread r'
      obtain ⟨htake, hdrop⟩ := span_local hs r'
      rw [List.append_assoc, endTag, hdrop, htake, hcut]

theorem stops_comment (s : Text) : Stops comment s := by
  cases h : Text.cut? "-->" s with
  | none => exact .inl (by rw [comment, h])
  | some found =>
    obtain ⟨q, hs, hread⟩ := cut?_close (p := "--") h
    refine .inr ⟨q, found.2, .comment found.1, hs, fun r' => ?_⟩
    have hcut : Text.cut? "-->" (q ++ '>' :: r') = some (found.1, r') := hread r'
    rw [comment, hcut]

theorem stops_bogus (s : Text) : Stops bogus s := by
  cases h : Text.cut? ">" s with
  | none => exact .inl (by rw [bogus, h])
  | some found =>
    obtain ⟨q, hs, hread⟩ := cut?_close (p := []) h
    refine .inr ⟨q, found.2, .bogus, hs, fun r' => ?_⟩
    have hcut : Text.cut? ">" (q ++ '>' :: r') = some (found.1, r') := hread r'
    rw [bogus, hcut]

theorem Stops.handedOn {read onward : Text → Token × Text} {p s : Text} (h : Stops onward s)
    (hs : read (p ++ s) = onward s)
    (hclose : ∀ q r r', s = q ++ '>' :: r → read (p ++ (q ++ '>' :: r')) = onward (q ++ '>' :: r')) :
    Stops read (p ++ s) := by
  rcases h with h | ⟨q, r, t, rfl, hread⟩
  · exact .inl (hs.trans h)
  · refine .inr ⟨p ++ q, r, t, (List.append_assoc _ _ _).symm, fun r' => ?_⟩
    rw [List.append_assoc, hclose q r r' rfl, hread]

theorem markup_exclamation {s : Text} (h : ∀ u, s ≠ '-' :: '-' :: u) : markup ('!' :: s) = bogus s := by
  unfold markup
  split
  · rename_i u e
    exact absurd (List.cons.inj e).2 (h u)
  · rename_i e
    rw [(List.cons.inj e).2]
  all_goals simp_all

theorem markup_startTag {s : Text} (h : ∀ c ∈ s.head?, c ≠ '!' ∧ c ≠ '?' ∧ c ≠ '/') :
    markup s = startTag s := by
  unfold markup
  split
  all_goals simp_all

theorem stops_markup (s : Text) : Stops markup s := by
  rcases s with _ | ⟨c, s⟩
  · exact (stops_startTag []).handedOn (p := []) rfl fun q _ _ e => by cases q <;> cases e
  by_cases hexclamation : c = '!'
  · subst hexclamation
    by_cases hcomment : ∃ u, s = '-' :: '-' :: u
    · obtain ⟨u, rfl⟩ := hcomment
      exact (stops_comment u).handedOn (p := "!--") rfl fun _ _ _ _ => rfl
    · have hs : ∀ u, s ≠ '-' :: '-' :: u := fun u e => hcomment ⟨u, e⟩
      refine (stops_bogus s).handedOn (p := "!") (markup_exclamation hs) ?_
      rintro q r r' rfl
      refine markup_exclamation fun u e => ?_
      -- no more than two characters decide, and a `>` is no hyphen
      rcases q with _ | ⟨a, _ | ⟨b, q⟩⟩
      · exact absurd (List.cons.inj e).1 (by decide)
      · exact absurd (List.cons.inj (List.cons.inj e).2).1 (by decide)
      · obtain ⟨rfl, hb⟩ := List.cons.inj e
        obtain ⟨rfl, _⟩ := List.cons.inj hb
        exact hs _ rfl
  by_cases hquestion : c = '?'
  · subst hquestion
    exact (stops_bogus s).handedOn (p := "?") rfl fun _ _ _ _ => rfl
  by_cases hslash : c = '/'
  · subst hslash
    have hletter (q r r' : Text) :
        startsWithLetter (q ++ '>' :: r) = startsWithLetter (q ++ '>' :: r') := by
      cases q <;> rfl
    by_cases h : startsWithLetter s = true
    · refine (stops_endTag s).handedOn (p := "/") (if_pos h) ?_
      rintro q r r' rfl
      exact if_pos (hletter q r r' ▸ h)
    · refine (stops_bogus s).handedOn (p := "/") (if_neg h) ?_
      rintro q r r' rfl
      exact if_neg (hletter q r r' ▸ h)
  · have hc : ∀ d ∈ (c :: s).head?, d ≠ '!' ∧ d ≠ '?' ∧ d ≠ '/' := by
      simpa using ⟨hexclamation, hquestion, hslash⟩
    refine (stops_startTag (c :: s)).handedOn (p := []) (markup_startTag hc) ?_
    intro q r r' e
    rw [e] at hc
    exact markup_startTag (head?_close q r r' ▸ hc)

def opens : Text → Bool
  | [] => false
  | c :: s => c = '<' && opensMarkup s

theorem opens_eq_true {s : Text} (h : opens s = true) : ∃ u, s = '<' :: u := by
  cases s with
  | nil => cases h
  | cons c s =>
    obtain ⟨hc, _⟩ := Bool.and_eq_true_iff.1 h
    exact ⟨s, by rw [of_decide_eq_true hc]⟩

theorem opensMarkup_append {d : Char} (hd : d = '<' ∨ d = '>') (w r r' : Text) :
    opensMarkup (w ++ d :: r) = opensMarkup (w ++ d :: r') := by
  cases w with
  | nil => rcases hd with rfl | rfl <;> rfl
  | cons c w =>
    by_cases hc : c = '/'
    · subst hc
      cases w <;> rfl
    · simp [opensMarkup]

theorem closes_append {d : Char} (hd : d = '<' ∨ d = '>') {name : Text} (hname : d.toLower ∉ name)
    (c : Char) (w r r' : Text) : closes name (c :: (w ++ d :: r)) = closes name (c :: (w ++ d :: r')) := by
  by_cases h : c ≠ '<' ∨ (w ++ d :: r).head? ≠ some '/'
  · have hhead : (w ++ d :: r).head? = (w ++ d :: r').head? := by cases w <;> rfl
    rw [closes_cons_eq_false h, closes_cons_eq_false (hhead ▸ h)]
  · obtain ⟨rfl, hslash⟩ : c = '<' ∧ (w ++ d :: r).head? = some '/' := by simpa using h
    cases w with
    | nil =>
      obtain rfl : d = '/' := Option.some.inj hslash
      simp at hd
    | cons a w =>
      obtain rfl : a = '/' := Option.some.inj hslash
      have hdrop (x : Text) : Text.dropStart? "</" ('<' :: ('/' :: w ++ d :: x)) = some (w ++ d :: x) := rfl
      rw [closes, closes, hdrop, hdrop, Option.bind_some, Option.bind_some,
        Text.dropStartUnder?_append_cons hname, Text.dropStartUnder?_append_cons hname]
      rcases Text.dropStartUnder? Char.toLower name w with _ | _ | ⟨b, v⟩ <;> rfl

theorem scans_plain : Scans opens plain := ⟨rfl, fun _ _ => rfl⟩

section

variable {stop : Text → Bool} {scan : Text → Text × Text} (hscan : Scans stop scan)
include hscan

theorem Scans.exchange (hopen : ∀ s, stop s = true → ∃ u, s = '<' :: u)
    (hlocal : ∀ c u x y, stop (c :: (u ++ '<' :: x)) = stop (c :: (u ++ '<' :: y)))
    {w r o : Text} (h : scan (w ++ r) = (w, r)) (hempty : r = [] → o = [])
    (hstop : stop r = true → stop o = true) : scan (w ++ o) = (w, o) := by
  obtain ⟨hpassed, hend⟩ := hscan.eq_iff.1 h
  rcases hend with rfl | hr
  · rwa [hempty rfl]
  · obtain ⟨x, rfl⟩ := hopen r hr
    obtain ⟨y, rfl⟩ := hopen o (hstop hr)
    refine hscan.eq_iff.2 ⟨fun u hu hin => ?_, .inr (hstop hr)⟩
    obtain ⟨c, u, rfl⟩ := List.exists_cons_of_ne_nil hu
    exact hlocal c u x y ▸ hpassed _ hu hin

end

theorem next_local_of_opens {c : Char} {s : Text} (h : opens (c :: s) = true) :
    next c s = (.bogus, []) ∨
      ∃ q r t, s = q ++ '>' :: r ∧ ∀ r', next c (q ++ '>' :: r') = (t, r') := by
  have hmarkup {x : Text} (hx : opens (c :: x) = true) : next c x = markup x := if_pos hx
  rcases stops_markup s with hs | ⟨q, r, t, rfl, hread⟩
  · exact .inl ((hmarkup h).trans hs)
  · refine .inr ⟨q, r, t, rfl, fun r' => ?_⟩
    have hopens : opens (c :: (q ++ '>' :: r')) = true := by
      rw [← h, opens, opens, opensMarkup_append (.inr rfl) q r' r]
    exact (hmarkup hopens).trans (hread r')

theorem next_local_of_plain {c : Char} {s : Text} (h : opens (c :: s) = false) :
    ∃ w r, s = w ++ r ∧ next c s = (.text (c :: w), r) ∧
      ∀ o, (r = [] → o = []) → (opens r = true → opens o = true) →
        next c (w ++ o) = (.text (c :: w), o) := by
  have hplain {x : Text} (hx : opens (c :: x) = false) :
      next c x = (.text (c :: (plain x).1), (plain x).2) := if_neg (Bool.eq_false_iff.1 hx)
  refine ⟨(plain s).1, (plain s).2, (plain_append s).symm, hplain h, fun o hempty hopens => ?_⟩
  have hread : plain ((c :: (plain s).1) ++ (plain s).2) = (c :: (plain s).1, (plain s).2) := by
    rw [List.cons_append, plain_append, scans_plain.cons, h]
    rfl
  have hlocal : plain (c :: ((plain s).1 ++ o)) = (c :: (plain s).1, o) := by
    refine scans_plain.exchange (fun _ => opens_eq_true) ?_ hread hempty hopens
    intro d u x y
    rw [opens, opens, opensMarkup_append (.inl rfl) u x y]
  have hfirst : opens (c :: ((plain s).1 ++ o)) = false := by
    refine Bool.eq_false_iff.2 fun ho => ?_
    rw [scans_plain.cons, if_pos ho] at hlocal
    cases hlocal
  rw [scans_plain.cons, hfirst] at hlocal
  obtain ⟨htext, hrest⟩ := Prod.mk.inj hlocal
  rw [hplain hfirst, (List.cons.inj htext).2, hrest]

theorem opens_of_closes {name s : Text} (hn : isTagName name = true) (h : closes name s = true) :
    opens s = true := by
  obtain ⟨q, u, rfl, rfl, _⟩ := exists_of_closes h
  simp [opens, opensMarkup, startsWithLetter_of_lower hn u]

theorem of_rawTextElement {name : Text} (h : name ∈ rawTextElements) :
    isTagName name = true ∧ '<'.toLower ∉ name ∧ '>'.toLower ∉ name :=
  (by decide : ∀ n ∈ rawTextElements, isTagName n = true ∧ '<'.toLower ∉ n ∧ '>'.toLower ∉ n) name h

theorem nextIn_cases (raw : Option Text) (c : Char) (s : Text) :
    ((∀ name ∈ raw, name ≠ "plaintext" ∧ closes name (c :: s) = true) ∧
        nextIn raw c s = next c s) ∨
      (raw = some "plaintext" ∧ nextIn raw c s = (.rawText (c :: s), [])) ∨
      ∃ name, raw = some name ∧ name ≠ "plaintext" ∧ closes name (c :: s) = false ∧
        nextIn raw c s = (.rawText (c :: (rawBody name s).1), (rawBody name s).2) := by
  cases raw with
  | none => exact .inl ⟨fun _ h => (nomatch h), rfl⟩
  | some name =>
    by_cases hplain : name = "plaintext"
    · subst hplain
      exact .inr (.inl ⟨rfl, rfl⟩)
    by_cases hcloses : closes name (c :: s) = true
    · refine .inl ⟨fun n hn => ?_, nextIn_of_closes hplain hcloses⟩
      obtain rfl := Option.some.inj hn
      exact ⟨hplain, hcloses⟩
    · have hbody : rawBody name (c :: s) = (c :: (rawBody name s).1, (rawBody name s).2) :=
        if_neg hcloses
      exact .inr (.inr ⟨name, rfl, hplain, Bool.eq_false_iff.2 hcloses, nextIn_rawBody hplain hbody⟩)

theorem next_cases (c : Char) (s : Text) :
    (c = '<' ∧ startsWithLetter s = true ∧ next c s = startTag s) ∨
      (∀ tag l closing, (next c s).1 ≠ .startTag tag l closing) ∧ ∀ w, (next c s).1 ≠ .rawText w := by
  by_cases ho : opens (c :: s) = true
  · have hnext : next c s = markup s := if_pos ho
    obtain ⟨hc, hopens⟩ := Bool.and_eq_true_iff.1 ho
    rw [hnext]
    by_cases hletter : startsWithLetter s = true
    · exact .inl ⟨of_decide_eq_true hc, hletter, (markup_of_letter hletter).2⟩
    · right
      unfold markup comment bogus endTag
      split
      · split <;> simp
      · split <;> simp
      · split <;> simp
      · split
        · split <;> simp
        · split <;> simp
      · rcases s with _ | ⟨d, s⟩
        · cases hopens
        · simp_all [opensMarkup, startsWithLetter]
  · have hnext : next c s = (.text (c :: (plain s).1), (plain s).2) := if_neg ho
    rw [hnext]
    exact .inr ⟨by simp, by simp⟩

theorem of_nextIn_startTag {raw : Option Text} (hraw : ∀ name ∈ raw, name ∈ rawTextElements) {c : Char}
    {s tag r : Text} {l : List Attribute} {closing : Bool}
    (h : nextIn raw c s = (.startTag tag l closing, r)) :
    raw = none ∧ c = '<' ∧ startsWithLetter s = true ∧ startTag s = (.startTag tag l closing, r) := by
  rcases nextIn_cases raw c s with ⟨hcloses, hnext⟩ | ⟨_, hnext⟩ | ⟨_, _, _, _, hnext⟩
  · have h := hnext.symm.trans h
    obtain rfl : raw = none := by
      refine Option.eq_none_iff_forall_not_mem.2 fun name hname => ?_
      have htag := (of_rawTextElement (hraw name hname)).1
      rcases next_of_closes htag (hcloses name hname).2 with e | ⟨r', e⟩
      · cases e.symm.trans h
      · cases e.symm.trans h
    rcases next_cases c s with ⟨hc, hletter, hread⟩ | ⟨hnone, _⟩
    · exact ⟨rfl, hc, hletter, hread.symm.trans h⟩
    · exact absurd (congrArg Prod.fst h) (hnone tag l closing)
  · cases hnext.symm.trans h
  · cases hnext.symm.trans h

theorem of_nextIn_rawText {raw : Option Text} {c : Char} {s w r : Text}
    (h : nextIn raw c s = (.rawText w, r)) :
    ∃ name, raw = some name ∧ (r = [] ∨ closes name r = true) := by
  rcases nextIn_cases raw c s with ⟨_, hnext⟩ | ⟨hraw, hnext⟩ | ⟨name, hraw, _, _, hnext⟩
  · have h := hnext.symm.trans h
    rcases next_cases c s with ⟨_, _, hread⟩ | ⟨_, hnone⟩
    · have h := hread.symm.trans h
      unfold startTag at h
      split at h <;> cases h
    · exact absurd (congrArg Prod.fst h) (hnone w)
  · obtain ⟨_, rfl⟩ := Prod.mk.inj (hnext.symm.trans h)
    exact ⟨_, hraw, .inl rfl⟩
  · obtain ⟨_, rfl⟩ := Prod.mk.inj (hnext.symm.trans h)
    exact ⟨name, hraw, rawBody_closes name s⟩

/-- What may stand in place of the text behind a token that opens no raw-text element. -/
structure Follows (r o : Text) : Prop where
  opens : Lexer.opens r = true → Lexer.opens o = true
  closes : ∀ name ∈ rawTextElements, Lexer.closes name r = true → Lexer.closes name o = true

/-- A token is read again before a text that begins like the one that stood behind it. -/
theorem nextIn_local {raw : Option Text} (hraw : ∀ name ∈ raw, name ∈ rawTextElements) {c : Char}
    {s r : Text} {t : Token} (h : nextIn raw c s = (t, r)) :
    ∃ w, s = w ++ r ∧ ∀ o, (r = [] → o = []) → (rawAfter t = none → Follows r o) →
      nextIn raw c (w ++ o) = (t, o) := by
  rcases nextIn_cases raw c s with ⟨hcloses, hnext⟩ | ⟨rfl, hnext⟩ | ⟨name, rfl, hplain, hcloses, hnext⟩
  · -- markup depends on nothing behind its `>`, a text on whether markup opens behind it
    rw [hnext] at h
    by_cases ho : opens (c :: s) = true
    · rcases next_local_of_opens ho with hend | ⟨q, r', t', rfl, hlocal⟩
      · obtain ⟨rfl, rfl⟩ := Prod.mk.inj (hend.symm.trans h)
        refine ⟨s, (List.append_nil s).symm, fun o hempty _ => ?_⟩
        rw [hempty rfl, List.append_nil, hnext, h]
      · obtain ⟨rfl, rfl⟩ := Prod.mk.inj ((hlocal r').symm.trans h)
        refine ⟨q ++ ['>'], by simp, fun o _ _ => ?_⟩
        rw [List.append_assoc, List.singleton_append, ← hlocal o]
        cases raw with
        | none => rfl
        | some name =>
          obtain ⟨hplain, hcloses⟩ := hcloses name rfl
          rw [closes_append (.inr rfl) (of_rawTextElement (hraw name rfl)).2.2 c q r' o] at hcloses
          exact nextIn_of_closes hplain hcloses
    · obtain ⟨w, r', hs, hread, hlocal⟩ := next_local_of_plain (Bool.eq_false_iff.2 ho)
      obtain ⟨rfl, rfl⟩ := Prod.mk.inj (hread.symm.trans h)
      obtain rfl : raw = none := by
        refine Option.eq_none_iff_forall_not_mem.2 fun name hname => ho ?_
        exact opens_of_closes (of_rawTextElement (hraw name hname)).1 (hcloses name hname).2
      exact ⟨w, hs, fun o hempty hfollows => hlocal o hempty (hfollows rfl).opens⟩
  · obtain ⟨rfl, rfl⟩ := Prod.mk.inj (hnext.symm.trans h)
    refine ⟨s, (List.append_nil s).symm, fun o hempty _ => ?_⟩
    rw [hempty rfl, List.append_nil]
    rfl
  · -- no place within raw text comes to be an end tag by what stands behind it
    obtain ⟨rfl, rfl⟩ := Prod.mk.inj (hnext.symm.trans h)
    have hread : rawBody name ((c :: (rawBody name s).1) ++ (rawBody name s).2) =
        (c :: (rawBody name s).1, (rawBody name s).2) := by
      rw [List.cons_append, rawBody_append, (scans_rawBody name).cons, hcloses]
      rfl
    refine ⟨(rawBody name s).1, (rawBody_append name s).symm, fun o hempty hfollows => ?_⟩
    refine nextIn_rawBody hplain ((scans_rawBody name).exchange (w := c :: (rawBody name s).1)
      (fun x hx => ?_) (fun d u => closes_append (.inl rfl) (of_rawTextElement (hraw name rfl)).2.1 d u)
      hread hempty ((hfollows rfl).closes name (hraw name rfl)))
    obtain ⟨q, u, _, hq, _⟩ := exists_of_closes hx
    exact ⟨_, hq⟩

end Markup.Lexer

end Folio
