import Folio.Text.Basic

set_option autoImplicit false

/-!
# Comparing without letter case

A beginning is given in small letters and met under a folding of characters. `Char.toLower` folds the
ASCII capitals; `foldChar` folds besides them the two other characters whose small form is an ASCII
letter, the long s (U+017F) and the Kelvin sign (U+212A).
-/
namespace Folio.Text

def foldChar (c : Char) : Char :=
  if c = '\u017F' then 's' else if c = '\u212A' then 'k' else c.toLower

/-- The rest of a text after a beginning that is met under a folding. -/
def dropStartUnder? (fold : Char → Char) : Text → Text → Option Text
  | [], s => some s
  | _ :: _, [] => none
  | p :: ps, c :: cs => if p = fold c then dropStartUnder? fold ps cs else none

theorem dropStartUnder?_eq_some {fold : Char → Char} {p s r : Text}
    (h : dropStartUnder? fold p s = some r) : ∃ q : Text, q.map fold = p ∧ s = q ++ r := by
  induction p generalizing s with
  | nil => exact ⟨[], rfl, by simpa [dropStartUnder?] using h⟩
  | cons a p ih =>
    cases s with
    | nil => simp [dropStartUnder?] at h
    | cons c s =>
      simp only [dropStartUnder?] at h
      split at h
      · rename_i e
        obtain ⟨q, hq, rfl⟩ := ih h
        exact ⟨c :: q, by simp [hq, e], rfl⟩
      · simp at h

theorem dropStartUnder?_length {fold : Char → Char} {p s r : Text}
    (h : dropStartUnder? fold p s = some r) : r.length + p.length = s.length := by
  obtain ⟨q, rfl, rfl⟩ := dropStartUnder?_eq_some h
  simp [Nat.add_comm]

theorem dropStartUnder?_append (fold : Char → Char) (q r : Text) :
    dropStartUnder? fold (q.map fold) (q ++ r) = some r := by
  induction q with
  | nil => rfl
  | cons c q ih => simpa [dropStartUnder?] using ih

theorem dropStartUnder?_append_cons {fold : Char → Char} {p : Text} {d : Char} (hd : fold d ∉ p)
    (w r : Text) : dropStartUnder? fold p (w ++ d :: r) =
      (dropStartUnder? fold p w).map (· ++ d :: r) := by
  induction p generalizing w with
  | nil => rfl
  | cons a p ih =>
    have ha : a ≠ fold d := fun e => hd (e ▸ List.mem_cons_self)
    have hp : fold d ∉ p := fun hm => hd (List.mem_cons_of_mem a hm)
    cases w with
    | nil => simp [dropStartUnder?, ha]
    | cons c w =>
      simp only [List.cons_append, dropStartUnder?]
      split
      · exact ih hp w
      · rfl

end Folio.Text
