import Folio.Link.Embed
import Folio.Link.Url
import Mathlib.Data.List.TakeWhile

set_option autoImplicit false

/-!
# Cleaned URLs

A cleaned URL has no control characters and no white space at its ends, so cleaning it again changes
nothing and a guard that let it pass lets it pass unchanged.
-/
namespace Folio.Text

structure Trimmed (s : Text) : Prop where
  first : ∀ c ∈ s.head?, isBlank c = false
  last : ∀ c ∈ s.getLast?, isBlank c = false

theorem dropWhile_of_head {p : Char → Bool} {s : Text} (h : ∀ c ∈ s.head?, p c = false) :
    s.dropWhile p = s := by
  cases s with
  | nil => rfl
  | cons c s => exact List.dropWhile_cons_of_neg (by simp [h c rfl])

theorem span_append {p : Char → Bool} {w t : Text} (hw : ∀ c ∈ w, p c = true)
    (ht : ∀ c ∈ t.head?, p c = false) : (w ++ t).takeWhile p = w ∧ (w ++ t).dropWhile p = t := by
  rw [List.takeWhile_append_of_pos hw, List.dropWhile_append_of_pos hw]
  cases t with
  | nil => simp
  | cons c t => simp [ht c rfl]

theorem head_dropWhile {p : Char → Bool} (s : Text) : ∀ c ∈ (s.dropWhile p).head?, p c = false := by
  intro c hc
  have h := List.head?_dropWhile_not p s
  rw [Option.mem_def.1 hc] at h
  exact h

theorem trim_of_trimmed {s : Text} (h : Trimmed s) : trim s = s := by
  have hlast : ∀ c ∈ s.reverse.head?, isBlank c = false := by
    simpa using h.last
  rw [trim, trimStart, dropWhile_of_head h.first, trimEnd, dropEndWhile, dropWhile_of_head hlast,
    List.reverse_reverse]

theorem head_dropEndWhile (p : Char → Bool) (s : Text) :
    ∀ c ∈ (dropEndWhile p s).head?, c ∈ s.head? := by
  intro c hc
  obtain ⟨t, ht⟩ : dropEndWhile p s <+: s := by
    have h := List.reverse_prefix.2 (List.dropWhile_suffix (l := s.reverse) p)
    rwa [List.reverse_reverse] at h
  rw [← ht, List.head?_append]
  simp [Option.mem_def.1 hc]

theorem trimmed_trim (s : Text) : Trimmed (trim s) where
  first := fun c hc => head_dropWhile s c (head_dropEndWhile isBlank _ c hc)
  last := by
    intro c hc
    rw [trim, trimEnd, dropEndWhile, List.getLast?_reverse] at hc
    exact head_dropWhile _ c hc

theorem trim_isInfix (s : Text) : trim s <:+: s := by
  have hstart : trimStart s <:+ s := List.dropWhile_suffix _
  have hend : trim s <+: trimStart s := by
    have h := List.reverse_prefix.2 (List.dropWhile_suffix (l := (trimStart s).reverse) isBlank)
    rwa [List.reverse_reverse] at h
  exact hend.isInfix.trans hstart.isInfix

theorem join_cons_cons (sep t u : Text) (parts : List Text) :
    join sep (t :: u :: parts) = t ++ (sep ++ join sep (u :: parts)) := by
  simp [join, List.intercalate]

theorem forall_mem_join {P : Char → Prop} {sep : Text} {parts : List Text} (hs : ∀ c ∈ sep, P c)
    (h : ∀ t ∈ parts, ∀ c ∈ t, P c) : ∀ c ∈ join sep parts, P c := by
  induction parts with
  | nil => simp [join, List.intercalate]
  | cons t parts ih =>
    have ht := h t List.mem_cons_self
    cases parts with
    | nil => simpa [join, List.intercalate] using ht
    | cons u parts =>
      have hrest := ih fun v hv => h v (List.mem_cons_of_mem t hv)
      intro c hc
      rw [join_cons_cons, List.mem_append, List.mem_append] at hc
      exact hc.elim (ht c) fun hc => hc.elim (hs c) (hrest c)

end Folio.Text

namespace Folio.Link

structure Cleaned (s : Text) : Prop where
  trimmed : Text.Trimmed s
  control : ∀ c ∈ s, Text.isControl c = false

theorem cleaned_clean (s : Text) : Cleaned (clean s) where
  trimmed := Text.trimmed_trim _
  control := by
    intro c hc
    have h := (Text.trim_isInfix _).subset hc
    simpa using (List.mem_filter.1 h).2

theorem clean_of_cleaned {s : Text} (h : Cleaned s) : clean s = s := by
  have hf : s.filter (fun c => !Text.isControl c) = s :=
    List.filter_eq_self.2 fun c hc => by simp [h.control c hc]
  rw [clean, Text.trim_of_trimmed h.trimmed, hf, Text.trim_of_trimmed h.trimmed]

theorem clean_clean (s : Text) : clean (clean s) = clean s := clean_of_cleaned (cleaned_clean s)

theorem eq_clean_of_guarded {allowed : Text → Text → Bool} {s u : Text}
    (h : guarded allowed s = some u) : u = clean s := by
  simp only [guarded] at h
  split at h
  · simp at h
  · split at h
    · simpa using h.symm
    · split at h
      · simpa using h.symm
      · simp at h

/-- A guard looks at nothing but the cleaned URL. -/
theorem guarded_clean (allowed : Text → Text → Bool) (s : Text) :
    guarded allowed (clean s) = guarded allowed s := by
  simp only [guarded, clean_clean]

theorem guarded_self {allowed : Text → Text → Bool} {s u : Text} (h : guarded allowed s = some u) :
    guarded allowed u = some u := by
  have hu := eq_clean_of_guarded h
  rw [hu, guarded_clean, h, hu]

theorem guarded_mono {allowed more : Text → Text → Bool}
    (hm : ∀ scheme url, allowed scheme url = true → more scheme url = true) {s u : Text}
    (h : guarded allowed s = some u) : guarded more s = some u := by
  simp only [guarded] at h ⊢
  split at h
  · simp at h
  · rename_i he
    rw [if_neg he]
    split at h
    · exact h
    · rename_i scheme hs
      split at h
      · rename_i ha
        simpa [hm scheme _ ha] using h
      · simp at h

theorem safeLink?_self {s u : Text} (h : safeLink? s = some u) : safeLink? u = some u :=
  guarded_self h

theorem safeResource?_self {b : Bool} {s u : Text} (h : safeResource? b s = some u) :
    safeResource? b u = some u := guarded_self h

theorem safeResource?_true {b : Bool} {s u : Text} (h : safeResource? b s = some u) :
    safeResource? true s = some u := by
  refine guarded_mono ?_ h
  intro scheme url hs
  cases b with
  | true => exact hs
  | false =>
    rw [Bool.or_eq_true]
    exact .inl (by simpa using hs)

def isPlain (c : Char) : Bool := !Text.isBlank c && !Text.isControl c

theorem isPlain_iff {c : Char} :
    isPlain c = true ↔ Text.isBlank c = false ∧ Text.isControl c = false := by
  simp [isPlain]

theorem cleaned_of_plain {s : Text} (h : ∀ c ∈ s, isPlain c = true) : Cleaned s where
  trimmed.first := fun c hc => (isPlain_iff.1 (h c (List.mem_of_mem_head? hc))).1
  trimmed.last := fun c hc => (isPlain_iff.1 (h c (List.mem_of_mem_getLast? hc))).1
  control := fun c hc => (isPlain_iff.1 (h c hc)).2

theorem safeResource?_secure (b : Bool) {r : Text} (h : ∀ c ∈ r, isPlain c = true) :
    safeResource? b ("https://" ++ r) = some ("https://" ++ r) := by
  have hplain : ∀ c ∈ ("https://" : Text) ++ r, isPlain c = true := by
    intro c hc
    have hfix : ∀ c ∈ ("https://" : Text), isPlain c = true := by decide
    exact (List.mem_append.1 hc).elim (hfix c) (h c)
  have hscheme : scheme? (("https://" : Text) ++ r) = some ("https" : Text) := rfl
  have hne : ((("https://" : Text) ++ r).isEmpty) = false := rfl
  rw [safeResource?, guarded, clean_of_cleaned (cleaned_of_plain hplain), hne, hscheme]
  rfl

end Folio.Link
