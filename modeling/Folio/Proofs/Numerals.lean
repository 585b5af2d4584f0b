import Folio.Proofs.Ascii
import Folio.Props
import Mathlib.Data.List.TakeDrop
import Mathlib.Data.List.TakeWhile

set_option autoImplicit false

/-!
# Numerals that are read

What is read keeps the sign it is spelled with. Only the word for it is read as no number; every other
numeral starts with a digit, a point, a sign or one of two letters.
-/
namespace Folio

namespace Double

def HasSign (negative : Bool) : Double → Prop
  | .nan => False
  | .infinite n => n = negative
  | .finite n _ _ => n = negative

theorem hasSign_ofParts (negative : Bool) (mantissa : Nat) (exponent : Int) :
    HasSign negative (ofParts negative mantissa exponent) := by
  unfold ofParts
  dsimp only
  generalize (if mantissa = 2 * leastFull then exponent + 1 else exponent) = e
  split <;> exact rfl

theorem hasSign_ofRatio (negative : Bool) (num den : Nat) :
    HasSign negative (ofRatio negative num den) := by
  unfold ofRatio
  split
  · exact rfl
  · exact hasSign_ofParts negative _ _

theorem hasSign_ofDecimal (negative : Bool) (digits : Nat) (exponent : Int) :
    HasSign negative (ofDecimal negative digits exponent) := by
  unfold ofDecimal
  dsimp only
  split
  · exact rfl
  · split
    · exact rfl
    · split
      · exact rfl
      · exact hasSign_ofRatio negative _ _

end Double

namespace Numeral

theorem read?_eq (s : Text) :
    read? s = (unsigned? (sign s).1 (sign s).2).or (word? (sign s).1 (sign s).2) := rfl

theorem hasSign_of_unsigned? {negative : Bool} {s : Text} {x : Double}
    (h : unsigned? negative s = some x) : Double.HasSign negative x := by
  unfold unsigned? at h
  dsimp only at h
  split at h
  · cases h
  · obtain ⟨e, _, rfl⟩ := Option.map_eq_some_iff.1 h
    exact Double.hasSign_ofDecimal negative _ _

theorem digits_of_not_digit {c : Char} (h : ¬ c.isDigit = true) (s : Text) :
    digits (c :: s) = ([], c :: s) := by
  rw [digits, List.span_eq_takeWhile_dropWhile, List.takeWhile_cons_of_neg h,
    List.dropWhile_cons_of_neg h]

theorem unsigned?_of_not_digit {c : Char} (hdigit : ¬ c.isDigit = true) (hpoint : c ≠ '.')
    (negative : Bool) (s : Text) : unsigned? negative (c :: s) = none := by
  have hfraction : fraction (c :: s) = ([], c :: s) := by
    unfold fraction
    split
    · rename_i h
      exact absurd (List.cons.inj h).1 hpoint
    · rfl
  unfold unsigned?
  rw [digits_of_not_digit hdigit]
  dsimp only
  rw [hfraction]
  rfl

theorem word?_of_not_letter {c : Char} (hn : c.toLower ≠ 'n') (hi : c.toLower ≠ 'i') (negative : Bool)
    (s : Text) : word? negative (c :: s) = none := by
  have hne : ∀ {w : Text} {d : Char}, w.head? = some d → c.toLower ≠ d → Text.lower (c :: s) ≠ w := by
    rintro _ d hw hd rfl
    exact hd (Option.some.inj hw)
  have hinf : ¬ (Text.lower (c :: s) = "inf" || Text.lower (c :: s) = "infinity") = true := by
    rw [Bool.or_eq_true, decide_eq_true_eq, decide_eq_true_eq]
    exact not_or.2 ⟨hne rfl hi, hne rfl hi⟩
  unfold word?
  dsimp only
  rw [if_neg (hne rfl hn), if_neg hinf]

def isInitial (c : Char) : Bool :=
  c.isDigit || c = '.' || c = '-' || c = '+' || c.toLower = 'n' || c.toLower = 'i'

theorem read?_of_not_initial {c : Char} (h : isInitial c = false) (s : Text) : read? (c :: s) = none := by
  simp only [isInitial, Bool.or_eq_false_iff, decide_eq_false_iff_not] at h
  obtain ⟨⟨⟨⟨⟨hdigit, hpoint⟩, hminus⟩, hplus⟩, hn⟩, hi⟩ := h
  have hsign : sign (c :: s) = (false, c :: s) := by
    unfold sign
    split
    · rename_i h
      exact absurd (List.cons.inj h).1 hminus
    · rename_i h
      exact absurd (List.cons.inj h).1 hplus
    · rfl
  rw [read?_eq, hsign, unsigned?_of_not_digit (Bool.eq_false_iff.1 hdigit) hpoint,
    word?_of_not_letter hn hi]
  rfl

def spellsNan (s : Text) : Bool := Text.lower (sign s).2 = "nan"

theorem read?_eq_nan_iff (s : Text) : read? s = some .nan ↔ spellsNan s = true := by
  have hword : ∀ (negative : Bool) (t : Text), word? negative t = some .nan ↔ Text.lower t = "nan" := by
    intro negative t
    unfold word?
    dsimp only
    split
    · rename_i h
      exact iff_of_true rfl h
    · rename_i h
      refine iff_of_false ?_ h
      split <;> simp
  rw [read?_eq, spellsNan, decide_eq_true_eq, ← hword (sign s).1]
  cases h : unsigned? (sign s).1 (sign s).2 with
  | none => rfl
  | some x =>
    -- a text that is read as a decimal is not the word
    have hsign := hasSign_of_unsigned? h
    refine ⟨fun e => ?_, fun e => ?_⟩
    · obtain rfl := Option.some.inj e
      exact hsign.elim
    · rw [hword] at e
      cases ht : (sign s).2 with
      | nil =>
        rw [ht] at e
        cases e
      | cons c t =>
        rw [ht] at e h
        have hc : c.toLower = 'n' := (List.cons.inj e).1
        have hdigit : ¬ c.isDigit = true := by
          have hlower := Text.congr_toLower (f := Char.isDigit) (by decide) c
          rw [hc] at hlower
          rw [← hlower]
          decide
        have hpoint : c ≠ '.' := by
          rintro rfl
          exact absurd hc (by decide)
        rw [unsigned?_of_not_digit hdigit hpoint] at h
        cases h

def isSpelling (c : Char) : Bool :=
  c.isDigit || c = '.' || c = '-' || c = '+' || ("aefinty" : Text).contains c.toLower

theorem isSpelling_of_isDigit {c : Char} (h : c.isDigit = true) : isSpelling c = true := by
  rw [isSpelling, h]
  rfl

theorem isSpelling_of_digits {s : Text} (h : ∀ c ∈ (digits s).2, isSpelling c = true) :
    ∀ c ∈ s, isSpelling c = true := by
  rw [digits, List.span_eq_takeWhile_dropWhile] at h
  rw [← List.takeWhile_append_dropWhile (p := Char.isDigit) (l := s)]
  exact List.forall_mem_append.2
    ⟨fun c hc => isSpelling_of_isDigit (List.mem_takeWhile_imp hc), h⟩

theorem isSpelling_of_sign {s : Text} (h : ∀ c ∈ (sign s).2, isSpelling c = true) :
    ∀ c ∈ s, isSpelling c = true := by
  unfold sign at h
  split at h
  · exact List.forall_mem_cons.2 ⟨by decide, h⟩
  · exact List.forall_mem_cons.2 ⟨by decide, h⟩
  · exact h

theorem isSpelling_of_fraction {s : Text} (h : ∀ c ∈ (fraction s).2, isSpelling c = true) :
    ∀ c ∈ s, isSpelling c = true := by
  unfold fraction at h
  split at h
  · exact List.forall_mem_cons.2 ⟨by decide, isSpelling_of_digits h⟩
  · exact h

theorem isSpelling_of_exponent? {s : Text} {e : Int} (h : exponent? s = some e) :
    ∀ c ∈ s, isSpelling c = true := by
  cases s with
  | nil => simp
  | cons c s =>
    unfold exponent? at h
    dsimp only at h
    split at h
    · rename_i hc
      split at h
      · cases h
      · rename_i hrest
        rw [Bool.or_eq_true, not_or, Bool.not_eq_true', Bool.not_eq_false, List.isEmpty_iff] at hrest
        refine List.forall_mem_cons.2 ⟨?_, isSpelling_of_sign (isSpelling_of_digits ?_)⟩
        · rw [Bool.or_eq_true, decide_eq_true_eq, decide_eq_true_eq] at hc
          rcases hc with rfl | rfl
          · decide
          · decide
        · rw [List.isEmpty_iff.1 hrest.2]
          simp
    · cases h

theorem isSpelling_of_unsigned? {negative : Bool} {s : Text} {x : Double}
    (h : unsigned? negative s = some x) : ∀ c ∈ s, isSpelling c = true := by
  unfold unsigned? at h
  dsimp only at h
  split at h
  · cases h
  · obtain ⟨e, he, -⟩ := Option.map_eq_some_iff.1 h
    exact isSpelling_of_digits (isSpelling_of_fraction (isSpelling_of_exponent? he))

theorem isSpelling_of_word? {negative : Bool} {s : Text} {x : Double}
    (h : word? negative s = some x) : ∀ c ∈ s, isSpelling c = true := by
  have hlower : Text.lower s ∈ (["nan", "inf", "infinity"] : List Text) := by
    unfold word? at h
    dsimp only at h
    split at h
    · rename_i hs
      simp [hs]
    · split at h
      · rename_i hs
        rw [Bool.or_eq_true, decide_eq_true_eq, decide_eq_true_eq] at hs
        rcases hs with hs | hs <;> simp [hs]
      · cases h
  have hletters : ∀ w ∈ (["nan", "inf", "infinity"] : List Text), ∀ c ∈ w,
      ("aefinty" : Text).contains c = true := by decide
  intro c hc
  rw [isSpelling, hletters _ hlower c.toLower (List.mem_map_of_mem hc), Bool.or_true]

theorem isSpelling_of_read? {s : Text} {x : Double} (h : read? s = some x) :
    ∀ c ∈ s, isSpelling c = true := by
  rw [read?_eq] at h
  rcases Option.or_eq_some_iff.1 h with h | ⟨-, h⟩
  · exact isSpelling_of_sign (isSpelling_of_unsigned? h)
  · exact isSpelling_of_sign (isSpelling_of_word? h)

end Numeral

namespace Props

/-- What is taken off a text are units at its end. -/
theorem dropUnit_spec (unit : Text) (n : Nat) (s : Text) :
    ∃ k, s = dropUnit unit n s ++ (List.replicate k unit).flatten := by
  induction n generalizing s with
  | zero => exact ⟨0, (List.append_nil s).symm⟩
  | succ n ih =>
    rw [dropUnit]
    cases h : Text.dropEnd? unit s with
    | none => exact ⟨0, (List.append_nil s).symm⟩
    | some r =>
      obtain ⟨t, ht, rfl⟩ := Option.map_eq_some_iff.1 h
      have hs : s = t.reverse ++ unit := by
        have hreverse := congrArg List.reverse (Text.dropStart?_eq_some ht)
        simpa using hreverse
      obtain ⟨k, hk⟩ := ih t.reverse
      refine ⟨k + 1, ?_⟩
      rw [List.replicate_succ', List.flatten_append, List.flatten_singleton, ← List.append_assoc, ← hk]
      exact hs

theorem dropUnit_append (unit : Text) (n : Nat) (s : Text) :
    dropUnit unit (n + 1) (s ++ unit) = dropUnit unit n s := by
  rw [dropUnit, Text.dropEnd?, List.reverse_append, Text.dropStart?_append, Option.map_some,
    List.reverse_reverse]

theorem dropUnit_of_not_mem {unit s : Text} {d : Char} (hd : d ∈ unit) (hs : d ∉ s) (n : Nat) :
    dropUnit unit n s = s := by
  obtain ⟨k, hk⟩ := dropUnit_spec unit n s
  cases k with
  | zero => simpa using hk.symm
  | succ k =>
    refine absurd ?_ hs
    rw [hk, List.replicate_succ, List.flatten_cons]
    exact List.mem_append_right _ (List.mem_append_left _ hd)

theorem dropUnit_of_length_le {unit : Text} (hunit : unit ≠ []) {n m : Nat} {s : Text}
    (hn : s.length ≤ n) (hm : s.length ≤ m) : dropUnit unit n s = dropUnit unit m s := by
  have hnil : ∀ k, dropUnit unit k [] = [] := by
    intro k
    obtain ⟨j, hj⟩ := dropUnit_spec unit k []
    exact (List.append_eq_nil_iff.1 hj.symm).1
  induction n generalizing m s with
  | zero =>
    obtain rfl := List.length_eq_zero_iff.1 (Nat.le_zero.1 hn)
    rw [hnil, hnil]
  | succ n ih =>
    cases m with
    | zero =>
      obtain rfl := List.length_eq_zero_iff.1 (Nat.le_zero.1 hm)
      rw [hnil, hnil]
    | succ m =>
      rw [dropUnit, dropUnit]
      cases h : Text.dropEnd? unit s with
      | none => rfl
      | some r =>
        obtain ⟨t, ht, rfl⟩ := Option.map_eq_some_iff.1 h
        have hlength := congrArg List.length (Text.dropStart?_eq_some ht)
        have hpos := List.length_pos_iff.2 hunit
        simp only [List.length_append, List.length_reverse] at hlength
        exact ih (by simp only [List.length_reverse]; omega) (by simp only [List.length_reverse]; omega)

end Props

end Folio
