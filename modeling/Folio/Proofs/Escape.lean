import Folio.Markup.Reference
import Mathlib.Data.List.TakeWhile

set_option autoImplicit false

/-!
# Escaped text

What the escapers write is inert: it holds no character that a reader of markup takes for the start
or end of a tag or of an attribute value. Decoding inverts escaping, also with other text behind it.
-/
namespace Folio.Markup

/-- Without angle brackets and quotes. -/
def Inert (s : Text) : Prop := ∀ c ∈ s, c ≠ '<' ∧ c ≠ '>' ∧ c ≠ '"' ∧ c ≠ '\''

theorem inert_nil : Inert [] := by
  intro c hc
  simp at hc

theorem inert_append {s t : Text} (hs : Inert s) (ht : Inert t) : Inert (s ++ t) := by
  intro c hc
  rcases List.mem_append.1 hc with h | h
  · exact hs c h
  · exact ht c h

theorem Inert.not_mem_open {s : Text} (h : Inert s) : '<' ∉ s := fun hc => (h _ hc).1 rfl

theorem Inert.not_mem_quote {s : Text} (h : Inert s) : '"' ∉ s := fun hc => (h _ hc).2.2.1 rfl

theorem inert_of_isAlphanum {s : Text} (h : ∀ c ∈ s, c.isAlphanum = true) : Inert s := by
  intro c hc
  have ha := h c hc
  refine ⟨?_, ?_, ?_, ?_⟩ <;> rintro rfl <;> exact absurd ha (by decide)

theorem escapeChar_cases (c : Char) :
    escapeChar c ∈ (["&amp;", "&lt;", "&gt;", "&quot;", "&#39;"] : List Text) ∨
      (escapeChar c = [c] ∧ c ≠ '&' ∧ c ≠ '<' ∧ c ≠ '>' ∧ c ≠ '"' ∧ c ≠ '\'') := by
  unfold escapeChar
  split
  case h_6 h1 h2 h3 h4 h5 => exact .inr ⟨rfl, h1, h2, h3, h4, h5⟩
  all_goals exact .inl (by decide)

theorem inert_escapeChar (c : Char) : Inert (escapeChar c) := by
  rcases escapeChar_cases c with h | ⟨h, _, hs⟩
  · generalize escapeChar c = w at h
    revert w
    unfold Inert
    decide
  · rw [h]
    intro d hd
    obtain rfl : d = c := by simpa using hd
    exact hs

theorem decode_cons_of_ne {c : Char} (h : c ≠ '&') (s : Text) : decode (c :: s) = c :: decode s := by
  rw [decode, if_neg h]

theorem decode_reference {s r : Text} {c : Char} (h : reference? s = some (c, r)) :
    decode ('&' :: s) = c :: decode r := by
  rw [decode, if_pos rfl]
  split
  · rename_i d t e
    obtain ⟨rfl, rfl⟩ : d = c ∧ t = r := by simpa [h] using e.symm
    rfl
  · rename_i e
    simp [h] at e

theorem decode_amp {s : Text} (h : reference? s = none) : decode ('&' :: s) = '&' :: decode s := by
  rw [decode, if_pos rfl]
  split
  · rename_i e
    simp [h] at e
  · rfl

/-- The written form of a character decodes to it, whatever stands behind. -/
theorem decode_escapeChar (c : Char) (r : Text) : decode (escapeChar c ++ r) = c :: decode r := by
  unfold escapeChar
  split
  · exact decode_reference (s := "amp;" ++ r) rfl
  · exact decode_reference (s := "lt;" ++ r) rfl
  · exact decode_reference (s := "gt;" ++ r) rfl
  · exact decode_reference (s := "quot;" ++ r) rfl
  · exact decode_reference (s := "#39;" ++ r) rfl
  · rename_i h _ _ _ _
    exact decode_cons_of_ne h r

theorem decode_flatMap_append {f : Char → Text} (h : ∀ c r, decode (f c ++ r) = c :: decode r)
    (s r : Text) : decode (s.flatMap f ++ r) = s ++ decode r := by
  induction s with
  | nil => rfl
  | cons c s ih => rw [List.flatMap_cons, List.append_assoc, h, ih, List.cons_append]

theorem decode_flatMap {f : Char → Text} (h : ∀ c r, decode (f c ++ r) = c :: decode r) (s : Text) :
    decode (s.flatMap f) = s := by
  have hs := decode_flatMap_append h s []
  rwa [List.append_nil, decode, List.append_nil] at hs

theorem decode_escape_append (s r : Text) : decode (escape s ++ r) = s ++ decode r :=
  decode_flatMap_append decode_escapeChar s r

theorem decode_escape (s : Text) : decode (escape s) = s := decode_flatMap decode_escapeChar s

theorem guardBacktick_append (s t : Text) :
    guardBacktick (s ++ t) = guardBacktick s ++ guardBacktick t := List.flatMap_append

theorem escapeAttribute_cons (c : Char) (s : Text) :
    escapeAttribute (c :: s) = guardBacktick (escapeChar c) ++ escapeAttribute s := by
  rw [escapeAttribute, escape, List.flatMap_cons, guardBacktick_append]
  rfl

theorem guardBacktick_of_not_mem {s : Text} (h : '`' ∉ s) : guardBacktick s = s := by
  induction s with
  | nil => rfl
  | cons c s ih =>
    have hc : c ≠ '`' := fun e => h (e ▸ List.mem_cons_self)
    have hs : '`' ∉ s := fun hm => h (List.mem_cons_of_mem c hm)
    rw [guardBacktick, Text.replaceChar, List.flatMap_cons, if_neg hc]
    exact congrArg (c :: ·) (ih hs)

theorem decode_guarded (c : Char) (r : Text) :
    decode (guardBacktick (escapeChar c) ++ r) = c :: decode r := by
  by_cases h : c = '`'
  · subst h
    exact decode_reference (s := "#96;" ++ r) rfl
  · rw [guardBacktick_of_not_mem, decode_escapeChar]
    rcases escapeChar_cases c with hw | ⟨hw, _⟩
    · generalize escapeChar c = w at hw
      revert w
      decide
    · simpa [hw] using Ne.symm h

theorem escapeAttribute_eq_flatMap (s : Text) :
    escapeAttribute s = s.flatMap fun c => guardBacktick (escapeChar c) := List.flatMap_assoc

theorem decode_escapeAttribute_append (s r : Text) :
    decode (escapeAttribute s ++ r) = s ++ decode r := by
  rw [escapeAttribute_eq_flatMap, decode_flatMap_append decode_guarded]

theorem decode_escapeAttribute (s : Text) : decode (escapeAttribute s) = s := by
  rw [escapeAttribute_eq_flatMap, decode_flatMap decode_guarded]

theorem inert_flatMap {f : Char → Text} {s : Text} (h : ∀ c ∈ s, Inert (f c)) :
    Inert (s.flatMap f) := by
  intro d hd
  obtain ⟨c, hc, hd⟩ := List.mem_flatMap.1 hd
  exact h c hc d hd

theorem inert_escape (s : Text) : Inert (escape s) := inert_flatMap fun c _ => inert_escapeChar c

theorem inert_guardBacktick {s : Text} (h : Inert s) : Inert (guardBacktick s) := by
  refine inert_flatMap fun c hc => ?_
  split
  · unfold Inert
    decide
  · intro d hd
    obtain rfl : d = c := by simpa using hd
    exact h d hc

theorem inert_escapeAttribute (s : Text) : Inert (escapeAttribute s) :=
  inert_guardBacktick (inert_escape s)

/-- Escaped text is inert and decodes to what was escaped. The references in it are whole, so that text
    behind it decodes as it does alone. -/
theorem escape_round_trip (a b : Text) :
    decode (escape a) = a ∧ decode (escapeAttribute a) = a ∧
      decode (escape a ++ b) = a ++ decode b ∧ decode (escapeAttribute a ++ b) = a ++ decode b ∧
      Inert (escape a) ∧ Inert (escapeAttribute a) :=
  ⟨decode_escape a, decode_escapeAttribute a, decode_escape_append a b,
    decode_escapeAttribute_append a b, inert_escape a, inert_escapeAttribute a⟩

end Folio.Markup
