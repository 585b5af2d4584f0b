import Folio.Link.SecureHost
import Folio.Proofs.Numerals
import Folio.Render.Component

set_option autoImplicit false

/-!
# Levels of headings

A heading is an element of one of the levels from one to six, whatever its level is set to: the nearest
level to a number, infinite ones included, and the second where no number is given. The one exception is
the letter h before NaN, which lies next to no level and becomes level zero.
-/
namespace Folio.Render
open Markup

def levelTag (level : Nat) : Text := "h" ++ Text.ofNat level

/-- A text is an element of a level with an id: its start tag stands first and its end tag last. -/
def IsHeading (level : Nat) (id s : Text) : Prop :=
  ∃ content, s = Html.startTag (levelTag level) [attr "id" id] ++ content ++ Html.endTag (levelTag level)

/-- The level is set to the letter h and NaN. -/
def LevelIsNan (p : Props) : Prop :=
  ∃ s c r, p.get? "level" = some (.string s) ∧ Text.trim s = c :: r ∧ (c = 'h' ∨ c = 'H') ∧
    Numeral.spellsNan r = true

theorem levelOf_range (x : Double) : (1 ≤ levelOf x ∧ levelOf x ≤ 6) ↔ x ≠ .nan := by
  cases x with
  | nan => decide
  | infinite negative => cases negative <;> decide
  | finite negative mantissa exponent =>
    refine iff_of_true ?_ (by simp)
    unfold levelOf
    dsimp only [Double.roundAway]
    omega

def levelNumber? (p : Props) : Option Double :=
  (p.double? "level").or ((p.string? "level").bind spelledLevel?)

theorem headingLevel_eq (p : Props) : headingLevel p = ((levelNumber? p).map levelOf).getD 2 := rfl

theorem double?_ne_nan (p : Props) (key : Text) : p.double? key ≠ some .nan := by
  intro h
  have hfinite := (Option.filter_eq_some_iff.1 h).2
  cases hfinite

theorem spelledLevel?_eq_some {s : Text} {x : Double} : spelledLevel? s = some x ↔
    ∃ c r, s = c :: r ∧ (c = 'h' ∨ c = 'H') ∧ Numeral.read? r = some x := by
  constructor
  · intro h
    unfold spelledLevel? at h
    split at h
    · exact ⟨_, _, rfl, .inl rfl, h⟩
    · exact ⟨_, _, rfl, .inr rfl, h⟩
    · cases h
  · rintro ⟨c, r, rfl, rfl | rfl, h⟩
    · exact h
    · exact h

theorem read?_dropUnit_of_h {c : Char} (hc : c = 'h' ∨ c = 'H') (n : Nat) (r : Text) :
    Numeral.read? (Props.dropUnit "px" n (c :: r)) = none := by
  have hinitial : Numeral.isInitial c = false := by
    rcases hc with rfl | rfl <;> decide
  obtain ⟨k, hk⟩ := Props.dropUnit_spec "px" n (c :: r)
  cases hdrop : Props.dropUnit "px" n (c :: r) with
  | nil =>
    -- then the text would be units alone
    rw [hdrop] at hk
    cases k with
    | zero => cases hk
    | succ k =>
      obtain rfl : c = 'p' := (List.cons.inj hk).1
      exact absurd hc (by decide)
  | cons d t =>
    rw [hdrop] at hk
    obtain rfl : c = d := (List.cons.inj hk).1
    exact Numeral.read?_of_not_initial hinitial t

theorem levelNumber?_eq_nan_iff (p : Props) : levelNumber? p = some .nan ↔ LevelIsNan p := by
  constructor
  · intro h
    rcases Option.or_eq_some_iff.1 h with h | ⟨_, h⟩
    · exact absurd h (double?_ne_nan p "level")
    · obtain ⟨t, ht, hspelled⟩ := Option.bind_eq_some_iff.1 h
      obtain ⟨value, hvalue, htrimmed⟩ := Option.bind_eq_some_iff.1 ht
      obtain ⟨s, hs, rfl⟩ := Option.map_eq_some_iff.1 (Option.filter_eq_some_iff.1 htrimmed).1
      cases value with
      | string s' =>
        obtain rfl := Option.some.inj hs
        obtain ⟨c, r, htrim, hc, hread⟩ := spelledLevel?_eq_some.1 hspelled
        exact ⟨s', c, r, hvalue, htrim, hc, (Numeral.read?_eq_nan_iff r).1 hread⟩
      | _ => cases hs
  · rintro ⟨s, c, r, hget, htrim, hc, hnan⟩
    have hdouble : p.double? "level" = none := by
      rw [Props.double?, hget]
      dsimp only
      rw [htrim, read?_dropUnit_of_h hc]
      rfl
    have hstring : p.string? "level" = some (c :: r) := by
      rw [Props.string?, hget]
      simp [Json.trimmed?, Json.string?, htrim]
    rw [levelNumber?, hdouble, hstring]
    exact spelledLevel?_eq_some.2 ⟨c, r, rfl, hc, (Numeral.read?_eq_nan_iff r).2 hnan⟩

theorem headingLevel_range (p : Props) :
    (1 ≤ headingLevel p ∧ headingLevel p ≤ 6) ↔ ¬ LevelIsNan p := by
  rw [headingLevel_eq, ← levelNumber?_eq_nan_iff]
  cases levelNumber? p with
  | none => exact iff_of_true (by decide) (by simp)
  | some x =>
    rw [Option.map_some, Option.getD_some, levelOf_range, Option.some_inj]

theorem headingLevel_of_nan {p : Props} (h : LevelIsNan p) : headingLevel p = 0 := by
  rw [headingLevel_eq, (levelNumber?_eq_nan_iff p).2 h]
  rfl

theorem headingLevel_of_roundAway {p : Props} {x : Double} {n : Int} (h : levelNumber? p = some x)
    (hn : x.roundAway = some n) : headingLevel p = (max 1 (min 6 n)).toNat := by
  rw [headingLevel_eq, h, Option.map_some, Option.getD_some]
  unfold levelOf
  rw [hn]

theorem IsHeading.unique {a b : Nat} {id id' s : Text} (ha : a ≤ 6) (hb : b ≤ 6)
    (h : IsHeading a id s) (h' : IsHeading b id' s) : a = b := by
  have htag : ∀ n ≤ 6, levelTag n = ['h', Nat.digitChar n] := by decide
  have hdigit : ∀ a ≤ 6, ∀ b ≤ 6, Nat.digitChar a = Nat.digitChar b → a = b := by decide
  have hthird : ∀ {n : Nat} {id : Text}, n ≤ 6 → IsHeading n id s → s[2]? = some (Nat.digitChar n) := by
    rintro n id hn ⟨content, rfl⟩
    rw [Html.startTag, htag n hn]
    rfl
  exact hdigit a ha b hb (Option.some.inj ((hthird ha h).symm.trans (hthird hb h')))

section

variable [Link.HostReader]

theorem isHeading_component (id : Text) (p : Props) (children : Text) :
    IsHeading (headingLevel p) id (component .heading id p children).write := by
  have hwrite : ∀ tag attributes content, Html.write (.element tag attributes content) =
      Html.startTag tag attributes ++ Html.writeAll content ++ Html.endTag tag := by
    intro tag attributes content
    rw [Html.write]
  exact ⟨_, hwrite _ _ _⟩

/-- A heading is an element of one of the six levels exactly when its level is not the letter h and NaN,
    which gives level zero. A finite number gives the level nearest to it. -/
theorem heading_level_iff (id : Text) (p : Props) (children : Text) :
    ((∃ level, 1 ≤ level ∧ level ≤ 6 ∧ IsHeading level id (component .heading id p children).write) ↔
      ¬ LevelIsNan p) ∧
    (LevelIsNan p → IsHeading 0 id (component .heading id p children).write) ∧
    ∀ x n, levelNumber? p = some x → x.roundAway = some n →
      IsHeading (max 1 (min 6 n)).toNat id (component .heading id p children).write := by
  have hheading := isHeading_component id p children
  refine ⟨⟨?_, fun h => ?_⟩, fun h => ?_, fun x n hx hn => ?_⟩
  · rintro ⟨level, hlow, hhigh, hlevel⟩ hnan
    rw [headingLevel_of_nan hnan] at hheading
    obtain rfl := hlevel.unique hhigh (by decide) hheading
    exact absurd hlow (by decide)
  · obtain ⟨hlow, hhigh⟩ := (headingLevel_range p).2 h
    exact ⟨headingLevel p, hlow, hhigh, hheading⟩
  · rwa [headingLevel_of_nan h] at hheading
  · rwa [headingLevel_of_roundAway hx hn] at hheading

end

/-- The letter h before NaN, in any letter case, is written as a level that there is not. -/
theorem not_isHeading_nan :
    ¬ ∃ level, 1 ≤ level ∧ level ≤ 6 ∧
      IsHeading level "n" (component .heading "n" [("level", .string "hNaN")] []).write := by
  rintro ⟨level, hlow, hhigh, hlevel⟩
  have hzero := isHeading_component "n" [("level", .string "hNaN")] []
  have hnan : LevelIsNan [("level", .string "hNaN")] :=
    ⟨"hNaN", 'h', "NaN", rfl, by decide, .inl rfl, by decide⟩
  rw [headingLevel_of_nan hnan] at hzero
  obtain rfl := hlevel.unique hhigh (by decide) hzero
  exact absurd hlow (by decide)

end Folio.Render
