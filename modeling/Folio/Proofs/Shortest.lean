import Folio.Json.Reader
import Folio.Proofs.Doubles
import Folio.Proofs.Numerals
import Folio.Proofs.Url

set_option autoImplicit false

/-!
# Numbers read back

The decimal that is found for a double lies in the interval of the double, and a decimal that is laid out
is read with the value it has. So in every notation what is written for a number is read as the number.
-/
namespace Folio

namespace Decimal
open Double

def value (d : Decimal) : ℚ := d.coefficient * 10 ^ d.exponent

theorem compareWith_spec (d : Decimal) (num : Nat) {den : Nat} (hd : 0 < den) :
    (d.compareWith num den = .gt ↔ (num : ℚ) / den < d.value) ∧
      (d.compareWith num den = .eq ↔ (num : ℚ) / den = d.value) ∧
      (d.compareWith num den = .lt ↔ d.value < (num : ℚ) / den) := by
  have hden : (0 : ℚ) < den := by exact_mod_cast hd
  have hscale : (0 : ℚ) < den * power 10 (-d.exponent) :=
    mul_pos hden (by exact_mod_cast power_pos (by decide) (-d.exponent))
  have hleft : ((d.coefficient * power 10 d.exponent * den : Nat) : ℚ) =
      d.value * (den * power 10 (-d.exponent)) := by
    rw [value, Nat.cast_mul, Nat.cast_mul, power_eq (by decide) d.exponent]
    push_cast
    ring
  have hright : ((num * power 10 (-d.exponent) : Nat) : ℚ) =
      num / den * (den * power 10 (-d.exponent)) := by
    push_cast
    field_simp
  rw [compareWith]
  refine ⟨?_, ?_, ?_⟩
  · rw [Nat.compare_eq_gt, ← mul_lt_mul_iff_of_pos_right hscale, ← hleft, ← hright, Nat.cast_lt]
  · rw [Nat.compare_eq_eq, ← mul_left_inj' hscale.ne', ← hleft, ← hright, Nat.cast_inj, eq_comm]
  · rw [Nat.compare_eq_lt, ← mul_lt_mul_iff_of_pos_right hscale, ← hleft, ← hright, Nat.cast_lt]

theorem near_of_readsBack {m : Nat} {e : Int} {d : Decimal} (hm : 0 < m)
    (h : readsBack m e d = true) : Near m e d.value := by
  have hpos : ∀ n k, 0 < (ratio n k).2 := fun _ k => power_pos (by decide) (-k)
  have hquarter : (2 : ℚ) ^ (e - 2) = 2 ^ e / 4 := by
    rw [zpow_sub₀ (by norm_num)]
    norm_num
  have hhigh : ((ratio (4 * m + 2) (e - 2)).1 : ℚ) / (ratio (4 * m + 2) (e - 2)).2 =
      (m + 1 / 2) * 2 ^ e := by
    rw [ratio_eq, hquarter]
    push_cast
    ring
  obtain ⟨low, hlow, hends⟩ : ∃ low, (if m = leastFull && leastExponent < e then 4 * m - 1 else 4 * m - 2) =
      low ∧ ((ratio low (e - 2)).1 : ℚ) / (ratio low (e - 2)).2 = (m - reach m e) * 2 ^ e := by
    refine ⟨_, rfl, ?_⟩
    rw [ratio_eq, hquarter, reach]
    simp only [Bool.and_eq_true, decide_eq_true_eq]
    split
    · rw [Nat.cast_sub (by omega)]
      push_cast
      ring
    · rw [Nat.cast_sub (by omega)]
      push_cast
      ring
  unfold readsBack at h
  dsimp only at h
  rw [hlow] at h
  simp only [Bool.and_eq_true, Bool.or_eq_true, beq_iff_eq, decide_eq_true_eq] at h
  obtain ⟨hgt, heq, -⟩ := compareWith_spec d (ratio low (e - 2)).1 (hpos low (e - 2))
  obtain ⟨-, heq', hlt⟩ := compareWith_spec d (ratio (4 * m + 2) (e - 2)).1 (hpos (4 * m + 2) (e - 2))
  rw [hgt, heq, hlt, heq', hends, hhigh] at h
  exact ⟨h.1, h.2.imp id (And.imp_right Eq.symm)⟩

theorem near_self {m : Nat} {e : Int} : Near m e (m * 2 ^ e) := by
  have hz : (0 : ℚ) < 2 ^ e := by positivity
  have hreach : 0 < reach m e := by
    unfold reach
    split <;> norm_num
  exact ⟨.inl (mul_lt_mul_of_pos_right (by linarith) hz), .inl (mul_lt_mul_of_pos_right (by linarith) hz)⟩

theorem value_strip (n : Nat) (d : Decimal) : (strip n d).value = d.value := by
  induction n generalizing d with
  | zero => rfl
  | succ n ih =>
    rw [strip]
    split
    · rename_i h
      simp only [Bool.and_eq_true, decide_eq_true_eq] at h
      obtain ⟨c, hc⟩ := Nat.dvd_of_mod_eq_zero h.1
      rw [ih, value, value, hc, Nat.mul_div_cancel_left c (by decide), zpow_add_one₀ (by norm_num)]
      push_cast
      ring
    · rfl

theorem value_exact (m : Nat) (e : Int) :
    value ⟨m * power 5 (-e) * power 2 e, min e 0⟩ = m * 2 ^ e := by
  obtain ⟨n, rfl | rfl⟩ := e.eq_nat_or_neg
  · simp [value, power]
  · have hten : (10 : ℚ) ^ n = 2 ^ n * 5 ^ n := by rw [← mul_pow]; norm_num
    simp [value, power, hten]
    field_simp

theorem near_shortest (tie : Tie) {m : Nat} (hm : 0 < m) (e : Int) :
    Near m e (shortest tie m e).value := by
  unfold shortest
  dsimp only
  rw [value_strip]
  generalize hfound : List.findSome? _ _ = found
  cases found with
  | none =>
    rw [Option.getD_none, value_exact]
    exact near_self
  | some d =>
    obtain ⟨n, _, hn⟩ := List.exists_of_findSome?_eq_some hfound
    exact near_of_readsBack hm (List.find?_some hn)

end Decimal

namespace Numeral
open Double

theorem natOfDigits_eq (ds : Text) : natOfDigits ds = Nat.ofDigitChars 10 ds 0 :=
  Nat.ofDigitChars_eq_foldl.symm

theorem natOfDigits_append (ds es : Text) :
    natOfDigits (ds ++ es) = 10 ^ es.length * natOfDigits ds + natOfDigits es := by
  rw [natOfDigits_eq, natOfDigits_eq, natOfDigits_eq, Nat.ofDigitChars_append,
    Nat.ofDigitChars_eq_ofDigitChars_zero]

theorem natOfDigits_zeros (n : Nat) : natOfDigits (Decimal.zeros n) = 0 := by
  rw [natOfDigits_eq, Decimal.zeros, Nat.ofDigitChars_replicate_zero, Nat.mul_zero]

theorem natOfDigits_ofNat (n : Nat) : natOfDigits (Text.ofNat n) = n := by
  rw [natOfDigits_eq]
  exact Nat.ofDigitChars_ten_toDigits

theorem ofNat_ne_nil (n : Nat) : Text.ofNat n ≠ [] := Nat.toDigits_ne_nil

theorem isDigit_ofNat (n : Nat) : ∀ c ∈ Text.ofNat n, c.isDigit = true :=
  fun _ hc => Nat.isDigit_of_mem_toDigits (by omega) (by omega) hc

theorem isDigit_zeros (n : Nat) : ∀ c ∈ Decimal.zeros n, c.isDigit = true := by
  intro c hc
  rw [List.eq_of_mem_replicate hc]
  rfl

theorem digits_append {ds : Text} (hds : ∀ c ∈ ds, c.isDigit = true) {rest : Text}
    (hrest : ∀ c ∈ rest.head?, c.isDigit = false) : digits (ds ++ rest) = (ds, rest) := by
  obtain ⟨htake, hdrop⟩ := Text.span_append hds hrest
  rw [digits, List.span_eq_takeWhile_dropWhile, htake, hdrop]

structure ReadsAs (s : Text) (v : ℚ) : Prop where
  first : ∀ c ∈ s.head?, c.isDigit = true
  read : ∀ negative, ∃ n k, unsigned? negative s = some (ofDecimal negative n k) ∧ (n : ℚ) * 10 ^ k = v

section

variable {whole part rest : Text} {e : Int} (hwhole : ∀ c ∈ whole, c.isDigit = true) (hne : whole ≠ [])
  (hpart : ∀ c ∈ part, c.isDigit = true) (he : exponent? rest = some e)
include hwhole hne

theorem isDigit_head (s : Text) : ∀ c ∈ (whole ++ s).head?, c.isDigit = true := by
  obtain ⟨d, t, rfl⟩ := List.exists_cons_of_ne_nil hne
  intro c hc
  obtain rfl : d = c := Option.some.inj hc
  exact hwhole d List.mem_cons_self

include he in
theorem readsAs_whole (hrest : ∀ c ∈ rest.head?, c.isDigit = false ∧ c ≠ '.') :
    ReadsAs (whole ++ rest) (natOfDigits whole * 10 ^ e) := by
  refine ⟨isDigit_head hwhole hne rest, fun negative => ⟨_, _, ?_, rfl⟩⟩
  have hfraction : fraction rest = ([], rest) := by
    unfold fraction
    split
    · exact absurd rfl (hrest '.' rfl).2
    · rfl
  unfold unsigned?
  rw [digits_append hwhole fun c hc => (hrest c hc).1]
  dsimp only
  rw [hfraction]
  simp [hne, he]

include hpart he in
theorem readsAs_point (hrest : ∀ c ∈ rest.head?, c.isDigit = false) :
    ReadsAs (whole ++ '.' :: (part ++ rest)) (natOfDigits (whole ++ part) * 10 ^ (e - part.length)) := by
  refine ⟨isDigit_head hwhole hne _, fun negative => ⟨_, _, ?_, rfl⟩⟩
  have hpoint : ∀ c ∈ ('.' :: (part ++ rest)).head?, c.isDigit = false := by
    intro c hc
    obtain rfl : '.' = c := Option.some.inj hc
    rfl
  have hfraction : fraction ('.' :: (part ++ rest)) = (part, rest) := digits_append hpart hrest
  unfold unsigned?
  rw [digits_append hwhole hpoint]
  dsimp only
  rw [hfraction]
  simp [hne, he]

end

theorem readsAs_digits {ds : Text} {v : ℚ} (hds : ∀ c ∈ ds, c.isDigit = true) (hne : ds ≠ [])
    (hv : (natOfDigits ds : ℚ) = v) : ReadsAs ds v := by
  have hread := readsAs_whole hds hne (rfl : exponent? [] = some 0) (by simp)
  rwa [List.append_nil, zpow_zero, mul_one, hv] at hread

theorem readsAs_places {whole part : Text} {v : ℚ} (hwhole : ∀ c ∈ whole, c.isDigit = true)
    (hne : whole ≠ []) (hpart : ∀ c ∈ part, c.isDigit = true)
    (hv : (natOfDigits (whole ++ part) : ℚ) * 10 ^ (-part.length : Int) = v) :
    ReadsAs (whole ++ '.' :: part) v := by
  have hread := readsAs_point hwhole hne hpart (rfl : exponent? [] = some 0) (by simp)
  rwa [List.append_nil, Int.zero_sub, hv] at hread

theorem read?_of_readsAs {s : Text} {v : ℚ} (h : ReadsAs s v) (negative : Bool) {m : Nat} {e : Int}
    (hm : 0 < m) (hproper : Proper (.finite negative m e)) (hv : Near m e v) :
    read? ((if negative then "-" else "" : Text) ++ s) = some (.finite negative m e) := by
  obtain ⟨n, k, hread, rfl⟩ := h.read negative
  have hsign : sign ((if negative then "-" else "" : Text) ++ s) = (negative, s) := by
    cases negative with
    | true => rfl
    | false =>
      unfold sign
      split
      · rename_i hs
        exact absurd (h.first '-' (by rw [show s = _ from hs]; rfl)) (by decide)
      · rename_i hs
        exact absurd (h.first '+' (by rw [show s = _ from hs]; rfl)) (by decide)
      · rfl
  rw [read?_eq, hsign, hread, ofDecimal_of_near hm hproper hv]
  rfl

theorem exponent?_signed (e : Int) :
    exponent? ((if e < 0 then "e-" else "e+" : Text) ++ Text.ofNat e.natAbs) = some e := by
  have hne := ofNat_ne_nil e.natAbs
  have hdigits : digits (Text.ofNat e.natAbs) = (Text.ofNat e.natAbs, []) := by
    have h : digits (Text.ofNat e.natAbs ++ []) = _ := digits_append (isDigit_ofNat e.natAbs) (by simp)
    rwa [List.append_nil] at h
  by_cases h : e < 0
  · rw [if_pos h]
    change exponent? ('e' :: '-' :: Text.ofNat e.natAbs) = some e
    simp only [exponent?, sign, hdigits]
    simp [hne, natOfDigits_ofNat, abs_of_neg h]
  · rw [if_neg h]
    change exponent? ('e' :: '+' :: Text.ofNat e.natAbs) = some e
    simp only [exponent?, sign, hdigits]
    simp [hne, natOfDigits_ofNat, abs_of_nonneg (not_lt.1 h)]

end Numeral

namespace Decimal
open Numeral

theorem readsAs_positional (d : Decimal) : ReadsAs d.positional d.value := by
  have hdigits := isDigit_ofNat d.coefficient
  have hne := ofNat_ne_nil d.coefficient
  unfold positional
  dsimp only
  split
  · rename_i h
    obtain ⟨n, hn⟩ := Int.eq_ofNat_of_zero_le h
    refine readsAs_digits (List.forall_mem_append.2 ⟨hdigits, isDigit_zeros _⟩) (by simp [hne]) ?_
    rw [value, natOfDigits_append, natOfDigits_ofNat, natOfDigits_zeros, hn]
    simp [zeros, mul_comm]
  · rename_i h
    -- the places after the point are as many as the exponent says
    obtain ⟨n, hn⟩ : ∃ n : Nat, d.exponent = -n := ⟨(-d.exponent).toNat, by omega⟩
    rw [hn, neg_neg, Int.toNat_natCast, value, hn]
    split
    · rename_i hlength
      have hplaces : (zeros (n - (Text.ofNat d.coefficient).length) ++ Text.ofNat d.coefficient).length =
          n := by
        rw [List.length_append, zeros, List.length_replicate, Nat.sub_add_cancel hlength]
      have hzero : natOfDigits "0" = 0 := rfl
      rw [List.append_assoc]
      change ReadsAs (("0" : Text) ++ '.' :: (zeros _ ++ Text.ofNat d.coefficient)) _
      refine readsAs_places (by decide : ∀ c ∈ ("0" : Text), c.isDigit = true) (by decide)
        (List.forall_mem_append.2 ⟨isDigit_zeros _, hdigits⟩) ?_
      rw [hplaces, natOfDigits_append, natOfDigits_append, hzero, natOfDigits_zeros, natOfDigits_ofNat]
      simp
    · rename_i hlength
      refine readsAs_places (fun c hc => hdigits c (List.mem_of_mem_take hc)) ?_
        (fun c hc => hdigits c (List.mem_of_mem_drop hc)) ?_
      · simpa [hne, Nat.sub_eq_zero_iff_le] using hlength
      · rw [List.take_append_drop, natOfDigits_ofNat, List.length_drop, Nat.sub_sub_self (by omega)]

theorem readsAs_pointZero {d : Decimal} (h : 0 ≤ d.exponent) :
    ReadsAs (d.positional ++ ".0") d.value := by
  obtain ⟨n, hn⟩ := Int.eq_ofNat_of_zero_le h
  have hzero : natOfDigits "0" = 0 := rfl
  rw [positional, if_pos h]
  change ReadsAs (Text.ofNat d.coefficient ++ zeros d.exponent.toNat ++ '.' :: ("0" : Text)) _
  refine readsAs_places
    (List.forall_mem_append.2 ⟨isDigit_ofNat d.coefficient, isDigit_zeros d.exponent.toNat⟩)
    (by simp [ofNat_ne_nil]) (by decide : ∀ c ∈ ("0" : Text), c.isDigit = true) ?_
  rw [natOfDigits_append, natOfDigits_append, hzero, natOfDigits_zeros, natOfDigits_ofNat]
  simp [value, hn, zeros]
  ring

theorem readsAs_scientific (d : Decimal) : ReadsAs d.scientific d.value := by
  have hvalue : d.value = natOfDigits (Text.ofNat d.coefficient) * 10 ^ d.exponent := by
    rw [natOfDigits_ofNat, value]
  have hne := ofNat_ne_nil d.coefficient
  have hdigits := isDigit_ofNat d.coefficient
  have hpower := exponent?_signed d.leading
  have hmark : ∀ c ∈ ((if d.leading < 0 then "e-" else "e+" : Text) ++
      Text.ofNat d.leading.natAbs).head?, c.isDigit = false ∧ c ≠ '.' := by
    split <;> simp
  rw [hvalue]
  unfold scientific
  dsimp only
  have hleading : d.leading = (Text.ofNat d.coefficient).length + d.exponent - 1 := rfl
  generalize d.leading = leading at *
  generalize Text.ofNat d.coefficient = digits at *
  match digits with
  | [] => exact absurd rfl hne
  | [c] =>
    have hread := readsAs_whole hdigits hne hpower hmark
    have hexponent : d.exponent = leading := by simp [hleading]
    rw [hexponent]
    exact hread
  | c :: a :: rest =>
    obtain ⟨hfirst, hrest⟩ := List.forall_mem_cons.1 hdigits
    have hread := readsAs_point (List.forall_mem_singleton.2 hfirst) (List.cons_ne_nil c []) hrest hpower
      fun c hc => (hmark c hc).1
    have hexponent : d.exponent = leading - (a :: rest).length := by
      simp [hleading]
      ring
    rw [hexponent]
    exact hread

end Decimal

namespace Notation
open Numeral

theorem readsAs_layOut (style : Notation) (d : Decimal) : ReadsAs (style.layOut d) d.value := by
  have hplain : ReadsAs
      (d.positional ++ String.toList (if style.pointZero && 0 ≤ d.exponent then ".0" else "")) d.value := by
    split
    · rename_i h
      rw [Bool.and_eq_true, decide_eq_true_eq] at h
      exact d.readsAs_pointZero h.2
    · rw [String.toList_empty, List.append_nil]
      exact d.readsAs_positional
  unfold layOut
  dsimp only
  split
  · exact hplain
  · split
    · exact hplain
    · exact d.readsAs_scientific

/-- What is written for a number is read as the number. -/
theorem read?_write (style : Notation) {x : Double} (h : x.Proper) :
    read? (style.write x) = some x := by
  cases x with
  | nan => rfl
  | infinite negative => cases negative <;> rfl
  | finite negative m e =>
    rcases m.eq_zero_or_pos with rfl | hm
    · -- a zero lies on the finest grid
      obtain rfl : e = Double.leastExponent := h.2.1.resolve_left (by decide)
      rw [write, magnitude, if_pos rfl]
      cases negative <;> cases style.pointZero <;> decide
    · rw [write, magnitude, if_neg hm.ne']
      exact read?_of_readsAs (style.readsAs_layOut _) negative hm h (Decimal.near_shortest style.tie hm e)

end Notation

namespace Numeral

theorem proper_read? {s : Text} {x : Double} (h : read? s = some x) : x.Proper := by
  rw [read?_eq] at h
  rcases Option.or_eq_some_iff.1 h with h | ⟨-, h⟩
  · unfold unsigned? at h
    dsimp only at h
    split at h
    · cases h
    · obtain ⟨e, -, rfl⟩ := Option.map_eq_some_iff.1 h
      exact Double.proper_ofDecimal _ _ _
  · unfold word? at h
    dsimp only at h
    split at h
    · obtain rfl := Option.some.inj h
      trivial
    · split at h
      · obtain rfl := Option.some.inj h
        trivial
      · cases h

end Numeral

namespace Json.Reader
open Double

theorem proper_scaled? {n : Nat} {k : Int} {x : Double} (h : scaled? n k = some x) : x.Proper := by
  have hn : (ofRatio false n 1).Proper := proper_ofRatio false n (by decide)
  unfold scaled? at h
  dsimp only at h
  split at h
  · exact Option.some.inj h ▸ hn
  · split at h
    · cases h
    · split at h
      · split at h
        · exact Option.some.inj h ▸ proper_scaleByTen hn k
        · cases h
      · split at h
        · exact Option.some.inj h ▸ proper_scaleByTen (proper_scaleByTen hn _) _
        · exact Option.some.inj h ▸ proper_zero false

theorem proper_real? {negative : Bool} {whole part : Text} {k : Int} {n : Number}
    (h : real? negative whole part k = some n) : n.toDouble.Proper := by
  obtain ⟨x, hx, rfl⟩ := Option.map_eq_some_iff.1 h
  cases negative with
  | true => exact proper_negate (proper_scaled? hx)
  | false => exact proper_scaled? hx

theorem proper_number? {s r : Text} {n : Number} (h : number? s = some (n, r)) : n.toDouble.Proper := by
  have hinteger : ∀ k, (Number.integer k).toDouble.Proper := fun k => proper_ofRatio _ _ (by decide)
  obtain ⟨⟨w, t⟩, -, h⟩ := Option.bind_eq_some_iff.1 h
  obtain ⟨m, hm, h⟩ := Option.map_eq_some_iff.1 h
  obtain rfl : m = n := (Prod.mk.inj h).1
  unfold Spelling.number? at hm
  split at hm
  · unfold integer? at hm
    dsimp only at hm
    split at hm
    · split at hm
      · exact proper_real? hm
      · exact Option.some.inj hm ▸ hinteger _
    · split at hm
      · exact Option.some.inj hm ▸ hinteger _
      · exact proper_real? hm
  · exact proper_real? hm

end Json.Reader
end Folio
