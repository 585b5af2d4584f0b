import Folio.Number.Double
import Mathlib.Algebra.Order.Field.Power
import Mathlib.Tactic.FieldSimp
import Mathlib.Tactic.Linarith
import Mathlib.Tactic.NormNum
import Mathlib.Tactic.Positivity
import Mathlib.Tactic.Ring

set_option autoImplicit false

/-!
# Rounding to doubles

Every double other than zero has an interval of numbers that are nearest to it. A quotient in that
interval is rounded to the double, whichever quotient it is, and whatever is rounded is a double of full
width or one on the finest grid.
-/
namespace Folio.Double

def Within (mantissa : Nat) (low high v : ℚ) : Prop :=
  (low < v ∨ mantissa % 2 = 0 ∧ low = v) ∧ (v < high ∨ mantissa % 2 = 0 ∧ v = high)

/-- How far the interval of a double reaches down, in units of its last place: the gap below a power of
    two is half as wide as the gap above. -/
def reach (mantissa : Nat) (exponent : Int) : ℚ :=
  if mantissa = leastFull ∧ leastExponent < exponent then 1 / 4 else 1 / 2

/-- The numbers that are nearest to a double. -/
def Near (mantissa : Nat) (exponent : Int) (v : ℚ) : Prop :=
  Within mantissa ((mantissa - reach mantissa exponent) * 2 ^ exponent)
    ((mantissa + 1 / 2) * 2 ^ exponent) v

theorem power_pos {b : Nat} (hb : 0 < b) (k : Int) : 0 < power b k := Nat.pow_pos hb

theorem power_eq {b : Nat} (hb : 0 < b) (k : Int) : (power b k : ℚ) = power b (-k) * (b : ℚ) ^ k := by
  have hb : (b : ℚ) ≠ 0 := by exact_mod_cast hb.ne'
  obtain ⟨n, rfl | rfl⟩ := k.eq_nat_or_neg
  · simp [power]
  · simp [power, hb]

theorem power_two_pos (k : Int) : (0 : ℚ) < power 2 k := by exact_mod_cast power_pos (by decide) k

theorem ratio_eq (m : Nat) (e : Int) : ((ratio m e).1 : ℚ) / (ratio m e).2 = m * 2 ^ e := by
  have h := power_two_pos (-e)
  rw [ratio, Nat.cast_mul, power_eq (by decide) e]
  push_cast
  field_simp

theorem scaled_eq (num : Nat) {den : Nat} (hd : 0 < den) (e : Int) :
    ((num * power 2 (-e) : Nat) : ℚ) / (den * power 2 e : Nat) = num / den / 2 ^ e := by
  have hden : (0 : ℚ) < den := by exact_mod_cast hd
  have h := power_two_pos (-e)
  have hz : (0 : ℚ) < 2 ^ e := by positivity
  push_cast
  rw [power_eq (by decide) e]
  push_cast
  field_simp

theorem binaryScale_spec {num den : Nat} (hn : 0 < num) (hd : 0 < den) :
    (2 : ℚ) ^ binaryScale num den ≤ num / den ∧ (num : ℚ) / den < 2 ^ (binaryScale num den + 1) := by
  have hden : (0 : ℚ) < den := by exact_mod_cast hd
  have hlow : ∀ n : Nat, 0 < n → (2 : ℚ) ^ (n.log2 : Int) ≤ n := by
    intro n h
    exact_mod_cast Nat.log2_self_le h.ne'
  have hhigh : ∀ n : Nat, (n : ℚ) < 2 ^ ((n.log2 : Int) + 1) := by
    intro n
    exact_mod_cast Nat.lt_log2_self
  -- the scale is the difference of the logarithms, or one less
  have hbelow : (2 : ℚ) ^ ((num.log2 : Int) - den.log2 - 1) ≤ num / den := by
    rw [le_div_iff₀ hden]
    calc (2 : ℚ) ^ ((num.log2 : Int) - den.log2 - 1) * den
        ≤ 2 ^ ((num.log2 : Int) - den.log2 - 1) * 2 ^ ((den.log2 : Int) + 1) :=
          mul_le_mul_of_nonneg_left (hhigh den).le (by positivity)
      _ = 2 ^ (num.log2 : Int) := by
          rw [← zpow_add₀ (by norm_num)]
          congr 1
          omega
      _ ≤ num := hlow num hn
  have habove : (num : ℚ) / den < 2 ^ ((num.log2 : Int) - den.log2 + 1) := by
    rw [div_lt_iff₀ hden]
    calc (num : ℚ) < 2 ^ ((num.log2 : Int) + 1) := hhigh num
      _ = 2 ^ ((num.log2 : Int) - den.log2 + 1) * 2 ^ (den.log2 : Int) := by
          rw [← zpow_add₀ (by norm_num)]
          congr 1
          omega
      _ ≤ 2 ^ ((num.log2 : Int) - den.log2 + 1) * den :=
          mul_le_mul_of_nonneg_left (hlow den hd) (by positivity)
  have htest : ∀ e : Int, den * power 2 e ≤ num * power 2 (-e) ↔ (2 : ℚ) ^ e ≤ num / den := by
    intro e
    have h := power_two_pos (-e)
    have hcast : ((den * power 2 e : Nat) : ℚ) = 2 ^ e * den * power 2 (-e) := by
      rw [Nat.cast_mul, power_eq (by decide) e]
      push_cast
      ring
    rw [le_div_iff₀ hden, ← mul_le_mul_iff_of_pos_right h, ← hcast]
    exact_mod_cast Iff.rfl
  unfold binaryScale
  dsimp only
  split
  · rename_i h
    exact ⟨(htest _).1 h, habove⟩
  · rename_i h
    rw [htest, not_le] at h
    refine ⟨hbelow, ?_⟩
    rwa [Int.sub_add_cancel]

theorem binaryScale_eq {num den : Nat} (hn : 0 < num) (hd : 0 < den) {s : Int}
    (hlow : (2 : ℚ) ^ s ≤ num / den) (hhigh : (num : ℚ) / den < 2 ^ (s + 1)) :
    binaryScale num den = s := by
  obtain ⟨h, h'⟩ := binaryScale_spec hn hd
  have hle : ∀ {a b : Int}, (2 : ℚ) ^ a ≤ num / den → (num : ℚ) / den < 2 ^ (b + 1) → a ≤ b := by
    intro a b ha hb
    have hab := (zpow_lt_zpow_iff_right₀ (by norm_num : (1 : ℚ) < 2)).1 (ha.trans_lt hb)
    omega
  exact le_antisymm (hle h hhigh) (hle hlow h')

theorem roundEven_eq {num den n : Nat} (hd : 0 < den)
    (hlow : 2 * (n * den) < 2 * num + den ∨ n % 2 = 0 ∧ 2 * (n * den) = 2 * num + den)
    (hhigh : 2 * num < 2 * (n * den) + den ∨ n % 2 = 0 ∧ 2 * num = 2 * (n * den) + den) :
    roundEven num den = n := by
  have hdiv : num / den * den + num % den = num := by
    rw [Nat.mul_comm]
    exact Nat.div_add_mod num den
  have hmod : num % den < den := Nat.mod_lt num hd
  have hle : num / den ≤ n := by
    by_contra h
    have hmul : (n + 1) * den ≤ num / den * den := Nat.mul_le_mul_right den (by omega)
    rw [Nat.succ_mul] at hmul
    omega
  have hge : n ≤ num / den + 1 := by
    by_contra h
    have hmul : (num / den + 2) * den ≤ n * den := Nat.mul_le_mul_right den (by omega)
    rw [Nat.add_mul] at hmul
    omega
  unfold roundEven
  dsimp only
  rcases Nat.lt_or_ge (num / den) n with hlt | hge'
  · -- rounded up
    obtain rfl : n = num / den + 1 := by omega
    rw [Nat.add_mul, Nat.one_mul] at hlow hhigh
    split
    · omega
    · split
      · rfl
      · split
        · omega
        · rfl
  · obtain rfl : n = num / den := by omega
    split
    · rfl
    · split
      · omega
      · split
        · rfl
        · omega

theorem roundEven_of_within {num den n : Nat} (hd : 0 < den)
    (h : Within n (n - 1 / 2) (n + 1 / 2) (num / den)) : roundEven num den = n := by
  have hden : (0 : ℚ) < den := by exact_mod_cast hd
  have hmul : (num : ℚ) = num / den * den := by field_simp
  obtain ⟨hlow, hhigh⟩ := h
  refine roundEven_eq hd ?_ ?_
  · refine hlow.imp (fun h => ?_) fun ⟨heven, h⟩ => ⟨heven, ?_⟩
    · have h := mul_lt_mul_of_pos_right h hden
      rw [← hmul] at h
      have : (2 * (n * den) : ℚ) < 2 * num + den := by linarith
      exact_mod_cast this
    · have h := congrArg (· * (den : ℚ)) h
      rw [← hmul] at h
      have : (2 * (n * den) : ℚ) = 2 * num + den := by linarith
      exact_mod_cast this
  · refine hhigh.imp (fun h => ?_) fun ⟨heven, h⟩ => ⟨heven, ?_⟩
    · have h := mul_lt_mul_of_pos_right h hden
      rw [← hmul] at h
      have : (2 * num : ℚ) < 2 * (n * den) + den := by linarith
      exact_mod_cast this
    · have h := congrArg (· * (den : ℚ)) h
      rw [← hmul] at h
      have : (2 * num : ℚ) = 2 * (n * den) + den := by linarith
      exact_mod_cast this

theorem roundEven_le {num den n : Nat} (hd : 0 < den) (h : num ≤ n * den) : roundEven num den ≤ n := by
  by_contra hlt
  have hmul : (n + 1) * den ≤ roundEven num den * den := Nat.mul_le_mul_right den (by omega)
  rw [Nat.add_mul, Nat.one_mul] at hmul
  have hnear := (roundEven_near num den hd).1
  omega

theorem le_roundEven {num den n : Nat} (hd : 0 < den) (h : n * den ≤ num) : n ≤ roundEven num den := by
  by_contra hlt
  have hmul : (roundEven num den + 1) * den ≤ n * den := Nat.mul_le_mul_right den (by omega)
  rw [Nat.add_mul, Nat.one_mul] at hmul
  have hnear := (roundEven_near num den hd).2
  omega

theorem leastFull_eq : (leastFull : ℚ) = 2 ^ (52 : Int) := by norm_num [leastFull]

theorem ofParts_of_ne (negative : Bool) {m : Nat} {e : Int} (hm : m ≠ 2 * leastFull)
    (he : e ≤ greatestExponent) : ofParts negative m e = .finite negative m e := by
  simp [ofParts, hm, not_lt.2 he]

theorem ofParts_grown (negative : Bool) {e : Int} (he : e + 1 ≤ greatestExponent) :
    ofParts negative (2 * leastFull) e = .finite negative leastFull (e + 1) := by
  simp [ofParts, not_lt.2 he]

theorem proper_zero (negative : Bool) : Proper (.finite negative 0 leastExponent) :=
  ⟨by decide, .inr rfl, le_rfl, by decide⟩

theorem proper_ofParts (negative : Bool) {m : Nat} {e : Int} (hm : m ≤ 2 * leastFull)
    (hfull : leastFull ≤ m ∨ e = leastExponent) (he : leastExponent ≤ e) :
    Proper (ofParts negative m e) := by
  have hpos : leastFull < 2 * leastFull := by decide
  by_cases hgrown : m = 2 * leastFull
  · subst hgrown
    by_cases hgreat : e + 1 ≤ greatestExponent
    · rw [ofParts_grown negative hgreat]
      exact ⟨hpos, .inl le_rfl, by omega, hgreat⟩
    · simp [ofParts, not_le.1 hgreat, Proper]
  · by_cases hgreat : e ≤ greatestExponent
    · rw [ofParts_of_ne negative hgrown hgreat]
      exact ⟨by omega, hfull, he, hgreat⟩
    · simp [ofParts, hgrown, not_le.1 hgreat, Proper]

theorem pos_of_ofParts {negative n : Bool} {m p : Nat} {e k : Int} (hm : 0 < m)
    (h : ofParts negative m e = .finite n p k) : 0 < p := by
  unfold ofParts at h
  dsimp only at h
  generalize (if m = 2 * leastFull then e + 1 else e) = d at h
  by_cases hgreat : greatestExponent < d
  · rw [if_pos hgreat] at h
    cases h
  · rw [if_neg hgreat] at h
    obtain rfl := (Double.finite.inj h).2.1
    split
    · decide
    · exact hm

theorem ofRatio_of_scale (negative : Bool) {num den : Nat} (hn : 0 < num) {e : Int}
    (he : max (binaryScale num den - 52) leastExponent = e) : ofRatio negative num den =
      ofParts negative (roundEven (num * power 2 (-e)) (den * power 2 e)) e := by
  subst he
  rw [ofRatio, if_neg hn.ne']

theorem scaled_le_iff (num : Nat) {den : Nat} (hd : 0 < den) (n : Nat) (e : Int) :
    num * power 2 (-e) ≤ n * (den * power 2 e) ↔ (num : ℚ) / den ≤ n * 2 ^ e := by
  have hz : (0 : ℚ) < 2 ^ e := by positivity
  have hscaled : (0 : ℚ) < (den * power 2 e : Nat) := by
    exact_mod_cast Nat.mul_pos hd (power_pos (by decide) e)
  rw [← div_le_iff₀ hz, ← scaled_eq num hd e, div_le_iff₀ hscaled]
  exact_mod_cast Iff.rfl

theorem le_scaled_iff (num : Nat) {den : Nat} (hd : 0 < den) (n : Nat) (e : Int) :
    n * (den * power 2 e) ≤ num * power 2 (-e) ↔ (n : ℚ) * 2 ^ e ≤ num / den := by
  have hz : (0 : ℚ) < 2 ^ e := by positivity
  have hscaled : (0 : ℚ) < (den * power 2 e : Nat) := by
    exact_mod_cast Nat.mul_pos hd (power_pos (by decide) e)
  rw [← le_div_iff₀ hz, ← scaled_eq num hd e, le_div_iff₀ hscaled]
  exact_mod_cast Iff.rfl

theorem roundEven_le_width {num den : Nat} (hn : 0 < num) (hd : 0 < den) {e : Int}
    (he : binaryScale num den ≤ 52 + e) :
    roundEven (num * power 2 (-e)) (den * power 2 e) ≤ 2 * leastFull := by
  refine roundEven_le (Nat.mul_pos hd (power_pos (by decide) e)) ((scaled_le_iff num hd _ e).2 ?_)
  have hwidth : ((2 * leastFull : Nat) : ℚ) * 2 ^ e = 2 ^ (53 + e) := by
    rw [zpow_add₀ (by norm_num)]
    norm_num [leastFull]
  rw [hwidth]
  exact (binaryScale_spec hn hd).2.le.trans (zpow_le_zpow_right₀ (by norm_num) (by omega))

theorem leastFull_le_roundEven {num den : Nat} (hn : 0 < num) (hd : 0 < den) {e : Int}
    (he : binaryScale num den = 52 + e) :
    leastFull ≤ roundEven (num * power 2 (-e)) (den * power 2 e) := by
  refine le_roundEven (Nat.mul_pos hd (power_pos (by decide) e)) ((le_scaled_iff num hd _ e).2 ?_)
  rw [leastFull_eq, ← zpow_add₀ (by norm_num), ← he]
  exact (binaryScale_spec hn hd).1

theorem proper_ofRatio (negative : Bool) (num : Nat) {den : Nat} (hd : 0 < den) :
    Proper (ofRatio negative num den) := by
  rcases num.eq_zero_or_pos with rfl | hn
  · rw [ofRatio, if_pos rfl]
    exact proper_zero negative
  · obtain ⟨e, he⟩ : ∃ e, max (binaryScale num den - 52) leastExponent = e := ⟨_, rfl⟩
    rw [ofRatio_of_scale negative hn he]
    refine proper_ofParts negative (roundEven_le_width hn hd (by omega)) ?_ (by omega)
    rcases (by omega : binaryScale num den = 52 + e ∨ e = leastExponent) with hfull | hfinest
    · exact .inl (leastFull_le_roundEven hn hd hfull)
    · exact .inr hfinest

theorem pos_of_ofRatio {negative n : Bool} {num den m : Nat} {k : Int} (hd : 0 < den) (h : den ≤ num)
    (hm : ofRatio negative num den = .finite n m k) : 0 < m := by
  have hn : 0 < num := hd.trans_le h
  have hscale : 0 ≤ binaryScale num den := by
    have hone : (2 : ℚ) ^ (0 : Int) < 2 ^ (binaryScale num den + 1) := by
      refine lt_of_le_of_lt ?_ (binaryScale_spec hn hd).2
      rw [zpow_zero, one_le_div (by exact_mod_cast hd)]
      exact_mod_cast h
    have := (zpow_lt_zpow_iff_right₀ (by norm_num : (1 : ℚ) < 2)).1 hone
    omega
  obtain ⟨e, he⟩ : ∃ e, binaryScale num den = 52 + e := ⟨binaryScale num den - 52, by omega⟩
  have hfull := leastFull_le_roundEven hn hd he
  rw [ofRatio_of_scale negative hn (by unfold leastExponent; omega : _ = e)] at hm
  exact pos_of_ofParts (lt_of_lt_of_le (by decide) hfull) hm

theorem proper_scaleByTen {x : Double} (h : x.Proper) (k : Int) : (x.scaleByTen k).Proper := by
  unfold scaleByTen
  split
  · rename_i negative m e n p q hten
    have hp : 0 < p := pos_of_ofRatio (by decide) (power_pos (by decide) _) hten
    have hpos : ∀ {a : Nat} (k : Int), 0 < a → 0 < (ratio a k).1 ∧ 0 < (ratio a k).2 := fun k ha =>
      ⟨Nat.mul_pos ha (power_pos (by decide) k), power_pos (by decide) (-k)⟩
    dsimp only
    split
    · exact proper_ofRatio _ _ (Nat.mul_pos (power_pos (by decide) _) (hpos q hp).2)
    · exact proper_ofRatio _ _ (Nat.mul_pos (power_pos (by decide) _) (hpos q hp).1)
  · exact h

theorem proper_negate {x : Double} (h : x.Proper) : x.negate.Proper := by
  cases x with
  | finite negative m e => exact h
  | _ => trivial

section

variable {negative : Bool} {num den m : Nat} {e : Int}

theorem roundEven_scaled (hd : 0 < den) {n : Nat}
    (h : Within n (n - 1 / 2) (n + 1 / 2) (num / den / 2 ^ e)) :
    roundEven (num * power 2 (-e)) (den * power 2 e) = n := by
  refine roundEven_of_within (Nat.mul_pos hd (power_pos (by decide) e)) ?_
  rwa [scaled_eq num hd e]

theorem ofRatio_of_within (hn : 0 < num) (hd : 0 < den)
    (he : max (binaryScale num den - 52) leastExponent = e) (hm : m < 2 * leastFull)
    (hgreat : e ≤ greatestExponent) (h : Within m (m - 1 / 2) (m + 1 / 2) (num / den / 2 ^ e)) :
    ofRatio negative num den = .finite negative m e := by
  rw [ofRatio_of_scale negative hn he, roundEven_scaled hd h]
  exact ofParts_of_ne negative hm.ne hgreat

/-- Just below a power of two the grid is finer, and the mantissa grows past its width. -/
theorem ofRatio_of_below (hn : 0 < num) (hd : 0 < den) (hleast : leastExponent < e)
    (hgreat : e ≤ greatestExponent) (hlow : (leastFull - 1 / 4 : ℚ) ≤ num / den / 2 ^ e)
    (hhigh : (num : ℚ) / den / 2 ^ e < leastFull) :
    ofRatio negative num den = .finite negative leastFull e := by
  have hz : (0 : ℚ) < 2 ^ e := by positivity
  have hfiner : (num : ℚ) / den / 2 ^ (e - 1) = 2 * (num / den / 2 ^ e) := by
    rw [zpow_sub_one₀ (by norm_num)]
    field_simp
  have hscale : binaryScale num den = 51 + e := by
    rw [le_div_iff₀ hz] at hlow
    rw [div_lt_iff₀ hz, leastFull_eq, ← zpow_add₀ (by norm_num)] at hhigh
    refine binaryScale_eq hn hd (le_trans ?_ hlow) (lt_of_lt_of_eq hhigh (by congr 1; omega))
    rw [zpow_add₀ (by norm_num)]
    exact mul_le_mul_of_nonneg_right (by norm_num [leastFull]) hz.le
  have hwithin : Within (2 * leastFull) (((2 * leastFull : Nat) : ℚ) - 1 / 2)
      (((2 * leastFull : Nat) : ℚ) + 1 / 2) (num / den / 2 ^ (e - 1)) := by
    rw [hfiner]
    push_cast
    refine ⟨?_, .inl (by linarith)⟩
    rcases hlow.lt_or_eq with hlow | hlow
    · exact .inl (by linarith)
    · exact .inr ⟨by decide, by linarith⟩
  rw [ofRatio_of_scale negative hn (by omega : _ = e - 1), roundEven_scaled hd hwithin,
    ofParts_grown negative (by omega), Int.sub_add_cancel]

theorem ofRatio_of_near (hn : 0 < num) (hd : 0 < den) (hproper : Proper (.finite negative m e))
    (h : Near m e (num / den)) : ofRatio negative num den = .finite negative m e := by
  obtain ⟨hwidth, hfull, hleast, hgreat⟩ := hproper
  have hz : (0 : ℚ) < 2 ^ e := by positivity
  -- the quotient in units of the last place
  obtain ⟨w, hw⟩ : ∃ w : ℚ, (num : ℚ) / den / 2 ^ e = w := ⟨_, rfl⟩
  have hv : (num : ℚ) / den = w * 2 ^ e := (div_eq_iff hz.ne').1 hw
  have hunits : Within m (m - reach m e) (m + 1 / 2) w := by
    rw [Near, hv] at h
    exact ⟨h.1.imp (lt_of_mul_lt_mul_right · hz.le) (And.imp_right (mul_right_cancel₀ hz.ne')),
      h.2.imp (lt_of_mul_lt_mul_right · hz.le) (And.imp_right (mul_right_cancel₀ hz.ne'))⟩
  have hhigh : w ≤ m + 1 / 2 := hunits.2.elim le_of_lt fun h => h.2.le
  have hlow : m - reach m e ≤ w := hunits.1.elim le_of_lt fun h => h.2.le
  rcases le_or_gt (leastFull : ℚ) w with hge | hlt
  · -- of full width
    have hscale : binaryScale num den = 52 + e := by
      have hm : (m : ℚ) + 1 ≤ 2 * leastFull := by exact_mod_cast hwidth
      refine binaryScale_eq hn hd ?_ ?_
      · rw [hv, zpow_add₀ (by norm_num), ← leastFull_eq]
        exact mul_le_mul_of_nonneg_right hge hz.le
      · rw [hv, Int.add_right_comm, zpow_add₀ (by norm_num)]
        exact mul_lt_mul_of_pos_right (by norm_num [leastFull] at hm ⊢; linarith) hz
    refine ofRatio_of_within hn hd (by omega) hwidth hgreat (hw ▸ ⟨?_, hunits.2⟩)
    have hlow := hunits.1
    unfold reach at hlow
    split at hlow
    · rename_i hnarrow
      exact .inl (by rw [hnarrow.1]; linarith)
    · exact hlow
  · rcases hleast.eq_or_lt with rfl | hleast
    · -- on the finest grid
      have hscale : binaryScale num den < 52 + leastExponent := by
        refine (zpow_lt_zpow_iff_right₀ (by norm_num : (1 : ℚ) < 2)).1 ?_
        refine (binaryScale_spec hn hd).1.trans_lt ?_
        rw [hv, zpow_add₀ (by norm_num), ← leastFull_eq]
        exact mul_lt_mul_of_pos_right hlt hz
      rw [reach, if_neg fun h => lt_irrefl _ h.2] at hunits
      exact ofRatio_of_within hn hd (by omega) hwidth hgreat (hw ▸ hunits)
    · have hm : leastFull ≤ m := hfull.resolve_right (ne_of_gt hleast)
      rcases hm.eq_or_lt with rfl | hm
      · rw [reach, if_pos ⟨rfl, hleast⟩] at hlow
        exact ofRatio_of_below hn hd hleast hgreat (hw ▸ hlow) (hw ▸ hlt)
      · rw [reach, if_neg fun h => hm.ne' h.1] at hlow
        have hm : (leastFull : ℚ) + 1 ≤ m := by exact_mod_cast hm
        linarith

end

theorem power_ten_eq (digits : Nat) (k : Int) :
    ((digits * power 10 k : Nat) : ℚ) / (power 10 (-k) : Nat) = digits * 10 ^ k := by
  have h : (0 : ℚ) < power 10 (-k) := by exact_mod_cast power_pos (by decide) (-k)
  rw [Nat.cast_mul, power_eq (by decide) k]
  push_cast
  field_simp

theorem proper_ofDecimal (negative : Bool) (digits : Nat) (exponent : Int) :
    Proper (ofDecimal negative digits exponent) := by
  unfold ofDecimal
  dsimp only
  split
  · exact proper_zero negative
  · split
    · trivial
    · split
      · exact proper_zero negative
      · exact proper_ofRatio negative _ (power_pos (by decide) _)

theorem Near.bounds {m : Nat} {e : Int} {v : ℚ} (h : Near m e v) (hm : 0 < m) :
    (2 : ℚ) ^ (e - 1) ≤ v ∧ v < (m + 1) * 2 ^ e := by
  have hz : (0 : ℚ) < 2 ^ e := by positivity
  have hm : (1 : ℚ) ≤ m := by exact_mod_cast hm
  have hreach : reach m e ≤ 1 / 2 := by
    unfold reach
    split <;> norm_num
  constructor
  · refine le_trans ?_ (h.1.elim le_of_lt fun h => h.2.le)
    rw [zpow_sub_one₀ (by norm_num), mul_comm]
    exact mul_le_mul_of_nonneg_right (by linarith) hz.le
  · refine lt_of_le_of_lt (h.2.elim le_of_lt fun h => h.2.le) ?_
    exact mul_lt_mul_of_pos_right (by linarith) hz

theorem power_two_ten (n : Nat) :
    (2 : ℚ) ^ (3 * n : Int) ≤ 10 ^ (n : Int) ∧ (10 : ℚ) ^ (-n : Int) ≤ 2 ^ (-(3 * n) : Int) := by
  have h : (2 : ℚ) ^ (3 * n : Int) ≤ 10 ^ (n : Int) := by
    rw [zpow_mul, zpow_natCast, zpow_natCast]
    exact pow_le_pow_left₀ (by norm_num) (by norm_num) n
  refine ⟨h, ?_⟩
  rw [zpow_neg, zpow_neg]
  exact inv_anti₀ (by positivity) h

theorem Near.exponent_range {digits m : Nat} {k e : Int} (h : Near m e (digits * 10 ^ k)) (hm : 0 < m)
    (hproper : Proper (.finite false m e)) (hdigits : 0 < digits) :
    k ≤ 400 ∧ -3000 ≤ 4 * k + 2 * ((digits.log2 : Int) + 1) := by
  obtain ⟨hwidth, -, hleast, hgreat⟩ := hproper
  obtain ⟨hlow, hhigh⟩ := h.bounds hm
  unfold leastExponent at hleast
  unfold greatestExponent at hgreat
  have hone : (1 : ℚ) ≤ digits := by exact_mod_cast hdigits
  have hbelow : ∀ {a b : Int}, (2 : ℚ) ^ a < 2 ^ b → a < b :=
    fun h => (zpow_lt_zpow_iff_right₀ (by norm_num)).1 h
  obtain ⟨n, rfl | rfl⟩ := k.eq_nat_or_neg
  · have hm : (m : ℚ) + 1 ≤ 2 ^ (53 : Int) := by
      have hwidth : (m : ℚ) + 1 ≤ 2 * leastFull := by exact_mod_cast hwidth
      exact hwidth.trans_eq (by norm_num [leastFull])
    have hchain : (2 : ℚ) ^ (3 * n : Int) < 2 ^ (53 + e) := by
      rw [zpow_add₀ (by norm_num)]
      calc (2 : ℚ) ^ (3 * n : Int) ≤ 10 ^ (n : Int) := (power_two_ten n).1
        _ ≤ digits * 10 ^ (n : Int) := le_mul_of_one_le_left (by positivity) hone
        _ < (m + 1) * 2 ^ e := hhigh
        _ ≤ 2 ^ (53 : Int) * 2 ^ e := mul_le_mul_of_nonneg_right hm (by positivity)
    have := hbelow hchain
    omega
  · have hlog : (digits : ℚ) < 2 ^ ((digits.log2 : Int) + 1) := by
      exact_mod_cast Nat.lt_log2_self
    have hchain : (2 : ℚ) ^ (e - 1) < 2 ^ ((digits.log2 : Int) + 1 + -(3 * n)) := by
      rw [zpow_add₀ (by norm_num) ((digits.log2 : Int) + 1)]
      calc (2 : ℚ) ^ (e - 1) ≤ digits * 10 ^ (-n : Int) := hlow
        _ ≤ digits * 2 ^ (-(3 * n) : Int) :=
          mul_le_mul_of_nonneg_left (power_two_ten n).2 (by positivity)
        _ < 2 ^ ((digits.log2 : Int) + 1) * 2 ^ (-(3 * n) : Int) :=
          mul_lt_mul_of_pos_right hlog (by positivity)
    have := hbelow hchain
    omega

/-- A decimal in the interval of a double is read as the double. -/
theorem ofDecimal_of_near {negative : Bool} {digits m : Nat} {k e : Int} (hm : 0 < m)
    (hproper : Proper (.finite negative m e)) (h : Near m e (digits * 10 ^ k)) :
    ofDecimal negative digits k = .finite negative m e := by
  have hdigits : 0 < digits := by
    refine Nat.pos_of_ne_zero fun hzero => ?_
    have hlow := (h.bounds hm).1
    rw [hzero, Nat.cast_zero, zero_mul] at hlow
    exact absurd hlow (not_le.2 (by positivity))
  obtain ⟨hgreat, hleast⟩ := h.exponent_range hm hproper hdigits
  rw [ofDecimal, if_neg hdigits.ne', if_neg (not_lt.2 hgreat), if_neg (not_lt.2 hleast)]
  refine ofRatio_of_near (Nat.mul_pos hdigits (power_pos (by decide) k)) (power_pos (by decide) (-k))
    hproper ?_
  rw [power_ten_eq]
  exact h

end Folio.Double
