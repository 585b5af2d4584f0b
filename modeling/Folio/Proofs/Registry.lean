import Folio.Proofs.Url
import Folio.Identity
import Mathlib.Data.List.Perm.Subperm
import Mathlib.Data.List.Nodup

set_option autoImplicit false

/-!
# Claimed ids

An id that is claimed was free before: there are more numbered forms to try than there are taken
ids. It is made of letters, digits, underscores and hyphens.
-/
namespace Folio
namespace Identity

theorem ofNat_inj {m n : Nat} (h : Text.ofNat m = Text.ofNat n) : m = n := by
  have hm := Nat.ofDigitChars_ten_toDigits (n := m)
  have hn := Nat.ofDigitChars_ten_toDigits (n := n)
  rw [← hm, ← hn]
  exact congrArg (Nat.ofDigitChars 10 · 0) h

theorem numbered_inj {base : Text} {m n : Nat} (h : numbered base m = numbered base n) : m = n := by
  have hdigits := List.append_cancel_left h
  exact ofNat_inj (by simpa using hdigits)

theorem mem_of_firstFree_mem {taken : List Text} {base : Text} {fuel n : Nat}
    (h : firstFree taken base fuel n ∈ taken) : ∀ i ≤ fuel, numbered base (n + i) ∈ taken := by
  induction fuel generalizing n with
  | zero =>
    intro i hi
    obtain rfl : i = 0 := Nat.le_zero.1 hi
    exact h
  | succ fuel ih =>
    rw [firstFree] at h
    split at h
    · rename_i hn
      intro i hi
      cases i with
      | zero => exact List.contains_iff_mem.1 hn
      | succ i =>
        have hrest := ih h i (by omega)
        rwa [show n + 1 + i = n + (i + 1) by omega] at hrest
    · rename_i hn
      exact absurd (List.contains_iff_mem.2 h) hn

theorem firstFree_not_mem (taken : List Text) (base : Text) (n : Nat) :
    firstFree taken base taken.length n ∉ taken := by
  intro h
  have hall := mem_of_firstFree_mem h
  let tried := (List.range (taken.length + 1)).map fun i => numbered base (n + i)
  have hnodup : tried.Nodup := by
    refine List.nodup_range.map fun i j e => ?_
    have := numbered_inj e
    omega
  have hsub : tried ⊆ taken := by
    intro t ht
    obtain ⟨i, hi, rfl⟩ := List.mem_map.1 ht
    exact hall i (Nat.lt_succ_iff.1 (List.mem_range.1 hi))
  have hlen : tried.length ≤ taken.length := (hnodup.subperm hsub).length_le
  simp only [tried, List.length_map, List.length_range] at hlen
  omega

def isIdChar (c : Char) : Bool := isTokenChar c || c = '-'

def IsId (s : Text) : Prop := ∀ c ∈ s, isIdChar c = true

instance (s : Text) : Decidable (IsId s) := List.decidableBAll _ s

theorem isId_append {s t : Text} (hs : IsId s) (ht : IsId t) : IsId (s ++ t) :=
  List.forall_mem_append.2 ⟨hs, ht⟩

theorem mem_of_mem_split {d : Char} {s w : Text} (hw : w ∈ Text.split d s) : ∀ c ∈ w, c ∈ s := by
  induction s generalizing w with
  | nil =>
    obtain rfl : w = [] := by simpa [Text.split] using hw
    simp
  | cons a s ih =>
    simp only [Text.split] at hw
    split at hw
    · rcases List.mem_cons.1 hw with rfl | hw
      · simp
      · exact fun c hc => List.mem_cons_of_mem a (ih hw c hc)
    · split at hw
      · obtain rfl : w = [a] := by simpa using hw
        simp
      · rename_i v ws hs
        have hin : ∀ w ∈ v :: ws, ∀ c ∈ w, c ∈ a :: s := by
          rw [← hs]
          exact fun w hw c hc => List.mem_cons_of_mem a (ih hw c hc)
        rcases List.mem_cons.1 hw with rfl | hw
        · exact List.forall_mem_cons.2 ⟨List.mem_cons_self, hin v List.mem_cons_self⟩
        · exact hin w (List.mem_cons_of_mem v hw)

theorem isId_of_mem_runs {s w : Text} (hw : w ∈ runs s) : IsId w := by
  intro c hc
  have hmem := mem_of_mem_split (List.mem_filter.1 hw).1 c hc
  obtain ⟨a, _, rfl⟩ := List.mem_map.1 hmem
  by_cases h : isTokenChar a = true
  · rw [if_pos h, isIdChar, h, Bool.true_or]
  · rw [if_neg h]
    decide

theorem isId_token (s : Text) : IsId (token s) := by
  unfold token
  dsimp only
  split
  · decide
  · exact Text.forall_mem_join (by decide) fun w hw => isId_of_mem_runs hw

theorem isId_withLetter {t : Text} (ht : IsId t) : IsId (withLetter t) := by
  unfold withLetter
  split
  · exact ht
  · exact isId_append (s := "el-") (by decide) ht

theorem isId_authored {props : Json.Fields} {t : Text} (h : authored? props = some t) : IsId t := by
  unfold authored? at h
  obtain ⟨metadata, _, h⟩ := Option.bind_eq_some_iff.1 h
  obtain ⟨written, _, h⟩ := Option.bind_eq_some_iff.1 h
  dsimp only at h
  split at h
  · simp at h
  · obtain rfl := Option.some.inj h
    exact isId_withLetter (isId_token _)

theorem isId_base (scope : Scope) (nodeId : Text) (props : Json.Fields) :
    IsId (base scope nodeId props) := by
  unfold base
  cases h : authored? props with
  | none =>
    have hmark : IsId (scopeMark scope ++ "-") := by
      cases scope <;> decide
    exact isId_append hmark (isId_token nodeId)
  | some t => exact isId_authored h

theorem isId_numbered {s : Text} (hs : IsId s) (n : Nat) : IsId (numbered s n) := by
  refine isId_append (isId_append (t := "-") hs (by decide)) ?_
  intro c hc
  have hd : c.isDigit = true := Nat.isDigit_of_mem_toDigits (by omega) (by omega) hc
  simp [isIdChar, isTokenChar, Char.isAlphanum, hd]

theorem isId_firstFree {s : Text} (hs : IsId s) (taken : List Text) (fuel n : Nat) :
    IsId (firstFree taken s fuel n) := by
  induction fuel generalizing n with
  | zero => exact isId_numbered hs n
  | succ fuel ih =>
    rw [firstFree]
    split
    · exact ih (n + 1)
    · exact isId_numbered hs n

end Identity

namespace Registry

theorem free_not_mem (r : Registry) (base : Text) : r.free base ∉ r.taken := by
  unfold free
  split
  · exact Identity.firstFree_not_mem r.taken base 2
  · rename_i h
    exact fun hm => h (List.contains_iff_mem.2 hm)

theorem isId_free (r : Registry) {base : Text} (hb : Identity.IsId base) :
    Identity.IsId (r.free base) := by
  unfold free
  split
  · exact Identity.isId_firstFree hb _ _ _
  · exact hb

/-- All that assigning an id does. -/
theorem assign_spec (r : Registry) (scope : Scope) (nodeId : Text) (props : Json.Fields) :
    ∃ id, r.assign scope nodeId props = (id, ⟨id :: r.taken⟩) ∧ id ∉ r.taken ∧ Identity.IsId id :=
  ⟨r.free (Identity.base scope nodeId props), rfl, r.free_not_mem _,
    r.isId_free (Identity.isId_base scope nodeId props)⟩

end Registry

end Folio
