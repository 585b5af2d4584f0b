import Folio.Proofs.InlineStyle
import Folio.Proofs.Scheme
import Mathlib.Data.List.Infix

set_option autoImplicit false

/-!
# Targets of `url(...)`

A value is scanned for `url(...)` from left to right, each search going on after the parenthesis that
closed the one before. So a `url(` is looked at if a closing parenthesis comes after it and none that
stands before it reaches over it; then what it points at is a safe resource. One that is left open, or
that stands inside of another, is passed over.
-/
namespace Folio.Style

def unquote : Text → Text
  | [] => []
  | q :: s => if (q = '"' ∨ q = '\'') ∧ s.getLast? = some q then s.dropLast else q :: s

/-- What a `url(` before a text points at: the text in a pair of quotes where the closing parenthesis
    follows it, else all that comes before the parenthesis or the end, without white space and quotes
    around it. -/
def targetAt (s : Text) : Text :=
  let s := Text.trimStart s
  match quotedTarget? '"' s, quotedTarget? '\'' s with
  | some (t, _), _ => t
  | none, some (t, _) => t
  | none, none => unquote (Text.trimEnd (s.takeWhile (· ≠ ')')))

/-- A `url(...)` starts before a text and ends in it. -/
def Within (before rest : Text) : Prop :=
  ∃ d ∈ before.tails, d ≠ [] ∧ ∃ found ∈ url? (d ++ rest), found.2.length < rest.length

instance (before rest : Text) : Decidable (Within before rest) :=
  inferInstanceAs (Decidable (∃ d ∈ before.tails, _))

theorem url?_suffix {s t r : Text} (h : url? s = some (t, r)) : r <:+ s := by
  obtain ⟨u, hu, ht⟩ := Option.bind_eq_some_iff.1 h
  obtain ⟨q, _, rfl⟩ := Text.dropStartUnder?_eq_some hu
  exact (target?_suffix ht).trans (List.suffix_append q u)

theorem url?_append {u : Text} (h : Text.lower u = "url(") (s : Text) : url? (u ++ s) = target? s := by
  have hu : u.map Text.foldChar = "url(" := by
    have hfold : (Text.lower u).map Text.foldChar = u.map Text.foldChar := by
      rw [Text.lower, List.map_map]
      exact List.map_congr_left fun c _ => Text.foldChar_toLower c
    rw [← hfold, h]
    decide
  rw [url?, ← hu, Text.dropStartUnder?_append, Option.bind_some]

theorem Within.of_suffix {b before rest : Text} (hb : b <:+ before) (h : Within b rest) :
    Within before rest := by
  obtain ⟨d, hd, h⟩ := h
  exact ⟨d, (List.mem_tails _ _).2 (((List.mem_tails _ _).1 hd).trans hb), h⟩

/-- The scan meets what nothing before it reaches over. -/
theorem mem_targets {before rest t r : Text} (h : url? rest = some (t, r)) (hout : ¬ Within before rest) :
    t ∈ targets (before ++ rest) := by
  have hrest : rest ≠ [] := by
    rintro rfl
    exact absurd (url?_length h) (Nat.not_lt_zero _)
  generalize hv : before ++ rest = v
  induction v using targets.induct generalizing before with
  | case1 => exact absurd (List.append_eq_nil_iff.1 hv).2 hrest
  | case2 c s t' r' h' ih =>
    rw [targets, h']
    by_cases hreach : rest.length ≤ r'.length
    · -- what is met here ends in what stands before
      obtain ⟨b, rfl⟩ : rest <:+ r' :=
        List.suffix_of_suffix_length_le ⟨before, hv⟩ (url?_suffix h') hreach
      obtain ⟨a, ha⟩ := url?_suffix h'
      have hall : (a ++ b) ++ rest = before ++ rest := by
        rw [List.append_assoc, ha, hv]
      have hb : a ++ b = before := List.append_cancel_right hall
      exact List.mem_cons_of_mem t' (ih (fun hw => hout (hw.of_suffix ⟨a, hb⟩)) rfl)
    · cases before with
      | nil =>
        obtain rfl : rest = c :: s := hv
        obtain ⟨rfl, _⟩ := Prod.mk.inj (Option.some.inj (h.symm.trans h'))
        exact List.mem_cons_self
      | cons d b =>
        rw [← hv] at h'
        refine absurd ?_ hout
        exact ⟨d :: b, (List.mem_tails _ _).2 (List.suffix_refl _), by simp, (t', r'), h',
          Nat.lt_of_not_le hreach⟩
  | case3 c s h' ih =>
    rw [targets, h']
    cases before with
    | nil =>
      obtain rfl : rest = c :: s := hv
      exact absurd (h.symm.trans h') (Option.some_ne_none _)
    | cons d b =>
      obtain ⟨rfl, rfl⟩ := List.cons.inj hv
      exact ih (fun hw => hout (hw.of_suffix (List.suffix_cons d b))) rfl

theorem unquote_cases (s : Text) : unquote s = s ∨
    ∃ q m, (q = '"' ∨ q = '\'') ∧ s = q :: (m ++ [q]) ∧ unquote s = m := by
  cases s with
  | nil => exact .inl rfl
  | cons q s =>
    rw [unquote]
    split
    · rename_i h
      obtain ⟨m, rfl⟩ := List.getLast?_eq_some_iff.1 h.2
      exact .inr ⟨q, m, h.1, rfl, List.dropLast_concat⟩
    · exact .inl rfl

theorem quotedTarget?_append {q : Char} {m tail : Text} (hm : q ∉ m)
    (htail : ∀ c ∈ tail, Text.isBlank c = true) (r : Text) :
    quotedTarget? q (q :: (m ++ q :: (tail ++ ')' :: r))) = some (m, r) := by
  have hcut : Text.cut? [q] (m ++ q :: (tail ++ ')' :: r)) = some (m, tail ++ ')' :: r) :=
    Text.cut?_append hm _
  rw [quotedTarget?, if_pos rfl, hcut, Option.bind_some]
  dsimp only
  rw [after?_of_blank (by decide) htail]
  rfl

theorem exists_target {s : Text} (h : ')' ∈ s) : ∃ t r, target? s = some (t, r) ∧
    (targetAt s = t ∨ targetAt s = unquote t ∧
      ∀ q m, q = '"' ∨ q = '\'' → t = q :: (m ++ [q]) → q ∈ m) := by
  have hmem : ')' ∈ Text.trimStart s := by
    rw [← List.takeWhile_append_dropWhile (p := Text.isBlank) (l := s)] at h
    refine (List.mem_append.1 h).resolve_left fun hblank => ?_
    exact absurd (List.mem_takeWhile_imp hblank) (by decide)
  obtain ⟨a, r, hs, ha⟩ := List.eq_append_cons_of_mem hmem
  have hcut : Text.cut? ")" (Text.trimStart s) = some (a, r) := by
    rw [hs]
    exact Text.cut?_append ha r
  have htake : (Text.trimStart s).takeWhile (· ≠ ')') = a := by
    have hpos : ∀ c ∈ a, decide (c ≠ ')') = true := fun c hc => by
      simpa using fun e : c = ')' => ha (e ▸ hc)
    rw [hs, List.takeWhile_append_of_pos hpos, List.takeWhile_cons_of_neg (by simp), List.append_nil]
  have hstart : s.dropWhile Text.isBlank = Text.trimStart s := rfl
  simp only [target?, targetAt, hstart]
  cases hdouble : quotedTarget? '"' (Text.trimStart s) with
  | some found => exact ⟨found.1, found.2, rfl, .inl rfl⟩
  | none =>
    cases hsingle : quotedTarget? '\'' (Text.trimStart s) with
    | some found => exact ⟨found.1, found.2, rfl, .inl rfl⟩
    | none =>
      refine ⟨Text.trimEnd a, r, by rw [hcut]; rfl, .inr ⟨by rw [htake], fun q m hq ht => ?_⟩⟩
      -- else the quotes would be the first pair, with the parenthesis after them
      by_contra hm
      obtain ⟨tail, htail, hblank⟩ := Text.exists_trimEnd_eq a
      have hquoted : Text.trimStart s = q :: (m ++ q :: (tail ++ ')' :: r)) := by
        rw [hs, htail, ht]
        simp
      have hsome := quotedTarget?_append hm hblank r
      rw [← hquoted] at hsome
      rcases hq with rfl | rfl
      · exact Option.some_ne_none _ (hsome.symm.trans hdouble)
      · exact Option.some_ne_none _ (hsome.symm.trans hsingle)

end Folio.Style

namespace Folio.Link

theorem compact_trim (s : Text) : compact (Text.trim s) = compact s := by
  obtain ⟨a, b, hs, ha, hb⟩ := Text.exists_trim_eq s
  have hnone : ∀ w : Text, (∀ c ∈ w, Text.isBlank c = true) → compact w = [] := fun w hw =>
    List.filter_eq_nil_iff.2 fun c hc => by simp [hw c hc]
  have happend : ∀ v w : Text, compact (v ++ w) = compact v ++ compact w :=
    List.filter_append
  conv_rhs => rw [hs, happend, happend, hnone a ha, hnone b hb, List.append_nil, List.nil_append]

theorem compact_clean (s : Text) : compact (clean s) = (compact s).filter fun c => !Text.isControl c := by
  rw [clean, compact_trim, compact, List.filter_comm]
  exact congrArg (List.filter _) (compact_trim s)

theorem isSome_safeResource?_of_quoted {q : Char} (hq : q = '"' ∨ q = '\'') {m : Text} (hm : q ∈ m)
    (h : (safeResource? true (q :: (m ++ [q]))).isSome = true) : (safeResource? true m).isSome = true := by
  obtain ⟨u, hu⟩ := Option.isSome_iff_exists.1 h
  obtain ⟨rfl, _, hallowed⟩ := guarded_eq_some_iff.1 hu
  obtain ⟨hblank, hcontrol, hchar⟩ :
      Text.isBlank q = false ∧ Text.isControl q = false ∧ isSchemeChar q = true := by
    rcases hq with rfl | rfl <;> decide
  have hcompact : compact (clean (q :: (m ++ [q]))) = q :: (compact (clean m) ++ [q]) := by
    rw [compact_clean, compact_clean]
    simp [compact, hblank, hcontrol]
  have hne : clean m ≠ [] := by
    intro he
    have hmem : q ∈ compact (clean m) := by
      rw [compact_clean]
      exact List.mem_filter.2 ⟨List.mem_filter.2 ⟨hm, by simp [hblank]⟩, by simp [hcontrol]⟩
    rw [he] at hmem
    exact List.not_mem_nil hmem
  refine Option.isSome_iff_exists.2 ⟨_, guarded_eq_some_iff.2 ⟨rfl, hne, fun name hname => ?_⟩⟩
  obtain ⟨rest, hrest⟩ := compact_of_leads hname
  have hleads : Leads (q :: name) (clean (q :: (m ++ [q]))) := by
    refine ⟨List.forall_mem_cons.2 ⟨⟨hblank, hchar⟩, hname.1⟩, rest ++ [q], ?_⟩
    have hthin := thinned_compact (clean (q :: (m ++ [q])))
    rw [hcompact, hrest, List.append_assoc] at hthin
    exact hthin
  have hscheme := hallowed _ hleads
  rcases hq with rfl | rfl <;> simp [Text.lower, resourceSchemes] at hscheme

end Folio.Link

namespace Folio.Style

/-- In a safe value every `url(...)` points at a safe resource, if its closing parenthesis is there and
    no other one reaches over it. -/
theorem isSome_safeResource?_targetAt {before u after : Text}
    (h : isSafeValue (before ++ (u ++ after)) = true) (hu : Text.lower u = "url(")
    (hclosed : ')' ∈ after) (hout : ¬ Within before (u ++ after)) :
    (Link.safeResource? true (targetAt after)).isSome = true := by
  obtain ⟨t, r, ht, hcase⟩ := exists_target hclosed
  have hmem : t ∈ targets (before ++ (u ++ after)) := mem_targets ((url?_append hu after).trans ht) hout
  have hsafe : (Link.safeResource? true t).isSome = true :=
    List.all_eq_true.1 (Bool.and_eq_true_iff.1 h).2 t hmem
  rcases hcase with htarget | ⟨htarget, hquote⟩
  · rw [htarget]
    exact hsafe
  · rw [htarget]
    obtain hsame | ⟨q, m, hq, rfl, hm⟩ := unquote_cases t
    · rw [hsame]
      exact hsafe
    · rw [hm]
      exact Link.isSome_safeResource?_of_quoted hq (hquote q m hq rfl) hsafe

theorem isSome_safeResource?_targetAt_second :
    (isSafeValue ("url('/a(1).png'), " ++ ("URL(" ++ " /b.png )")) = true ∧ Text.lower "URL(" = "url(" ∧
      ')' ∈ (" /b.png )" : Text) ∧ ¬ Within "url('/a(1).png'), " ("URL(" ++ " /b.png )")) ∧
    (Link.safeResource? true (targetAt " /b.png )")).isSome = true := by
  have h : isSafeValue ("url('/a(1).png'), " ++ ("URL(" ++ " /b.png )")) = true ∧
      Text.lower "URL(" = "url(" ∧ ')' ∈ (" /b.png )" : Text) ∧
      ¬ Within "url('/a(1).png'), " ("URL(" ++ " /b.png )") := by decide +kernel
  exact ⟨h, isSome_safeResource?_targetAt h.1 h.2.1 h.2.2.1 h.2.2.2⟩

/-- A `url(` without a closing parenthesis is not looked at, nor is one that a text in quotes with
    another `url(` in it hides. -/
theorem not_isSome_safeResource?_open :
    ¬ (∀ before u after : Text, isSafeValue (before ++ (u ++ after)) = true → Text.lower u = "url(" →
        (Link.safeResource? true (targetAt after)).isSome = true) ∧
    ¬ (∀ before u after : Text, isSafeValue (before ++ (u ++ after)) = true → Text.lower u = "url(" →
        ')' ∈ after → (Link.safeResource? true (targetAt after)).isSome = true) := by
  constructor
  · intro h
    exact absurd (h [] "url(" "mailto:x" (by decide +kernel) (by decide)) (by decide +kernel)
  · intro h
    exact absurd (h "\"url(/a\", " "url(" "mailto:y)" (by decide +kernel) (by decide) (by decide))
      (by decide +kernel)

end Folio.Style
