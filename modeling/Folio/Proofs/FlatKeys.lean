import Folio.Proofs.Bags

set_option autoImplicit false

/-!
# Bags or flat keys

A node is styled by bags or by the flat keys of older documents, never by both. Where bags style it, the
flat keys are not even read. Where they do not, no bag declares anything for the element itself, so the
flat declarations take the place of none.
-/
namespace Folio.Style
namespace Layers

/-- The keys whose values are read whichever way a node is styled. -/
def bagKeys : List Text :=
  ["advancedStyling", "pseudoStateStyling", "breakpointStyling", "customCSS", "customCss"]

/-- Props that differ at most in other keys, the flat ones among them. -/
def Agree (props other : Json.Fields) : Prop :=
  ∀ k ∈ bagKeys, Json.Fields.get? props k = Json.Fields.get? other k

/-- The bag of a node has a key with a value that is neither null nor blank, or a bag for the desktop
    declares something. -/
def StyledByBags (props : Json.Fields) : Prop :=
  (∃ fields, Json.Fields.get? props "advancedStyling" = some (.object fields) ∧
      ∃ f ∈ fields, isSet f.2 = true) ∨
    ∃ e ∈ desktopEntries props, declarations e.2 ≠ []

theorem hasAnyKeySet_iff (bag : Option Json) :
    hasAnyKeySet bag = true ↔ ∃ fields, bag = some (.object fields) ∧ ∃ f ∈ fields, isSet f.2 = true := by
  constructor
  · intro h
    match bag, h with
    | some (.object fields), h => exact ⟨fields, rfl, List.any_eq_true.1 h⟩
  · rintro ⟨fields, rfl, h⟩
    exact List.any_eq_true.2 h

theorem usesBags_iff (props : Json.Fields) : usesBags props = true ↔ StyledByBags props := by
  have hdesktop : ((breakpointEntries props).any fun e =>
      Breakpoint.parse? e.1 = some .desktop && !(declarations e.2).isEmpty) = true ↔
      ∃ e ∈ desktopEntries props, declarations e.2 ≠ [] := by
    simp only [desktopEntries, List.any_eq_true, List.mem_filter, Bool.and_eq_true, Bool.not_eq_true',
      List.isEmpty_eq_false_iff, and_assoc]
  rw [usesBags, Bool.or_eq_true, hasAnyKeySet_iff, StyledByBags]
  exact or_congr_right hdesktop

theorem breakpointEntries_congr {props other : Json.Fields} (h : Agree props other) :
    breakpointEntries props = breakpointEntries other := by
  rw [breakpointEntries, breakpointEntries, h "breakpointStyling" (by decide)]

theorem customOf_congr {props other : Json.Fields} (h : Agree props other) :
    customOf props = customOf other := by
  simp only [customOf, List.findSome?_cons, List.findSome?_nil, h "customCSS" (by decide),
    h "customCss" (by decide)]

theorem collected_congr {props other : Json.Fields} (h : Agree props other) :
    collected props = collected other := by
  have hown : ownLayer props = ownLayer other := by
    rw [ownLayer, ownLayer, h "advancedStyling" (by decide), h "pseudoStateStyling" (by decide)]
  rw [collected, collected, breakpointEntries_congr h, hown]

theorem usesBags_congr {props other : Json.Fields} (h : Agree props other) :
    usesBags props = usesBags other := by
  rw [usesBags, usesBags, breakpointEntries_congr h, h "advancedStyling" (by decide)]

theorem ofProps_congr {props other : Json.Fields} (h : Agree props other)
    (hbags : usesBags props = true) : ofProps props = ofProps other := by
  have hother : usesBags other = true := usesBags_congr h ▸ hbags
  have hlayer : (ofProps props).layer = (ofProps other).layer := by
    rw [layer_ofProps, layer_ofProps, if_pos hbags, if_pos hother, collected_congr h]
  have hcustom : (ofProps props).custom = (ofProps other).custom := customOf_congr h
  exact congrArg₂ Layers.mk hlayer hcustom

theorem base_rule_iff (layers : Layers) (element : Text) (r : Rule) :
    (.rule r ∈ layers.entries element ∧ r.slot = .base) ↔
      layers.layer .desktop .base ≠ [] ∧ r = ⟨element, .base, layers.layer .desktop .base⟩ := by
  have hmem : .rule r ∈ layers.entries element ↔ r ∈ rulesOf element (layers.layer .desktop) := by
    have hmedia : ∀ b, layers.mediaOf element b ≠ some (.rule r) := by
      intro b
      unfold mediaOf
      dsimp only
      split <;> simp
    simp [entries, hmedia]
  rw [hmem, mem_rulesOf]
  constructor
  · rintro ⟨⟨slot, hne, rfl⟩, rfl⟩
    exact ⟨hne, rfl⟩
  · rintro ⟨hne, rfl⟩
    exact ⟨⟨.base, hne, rfl⟩, rfl⟩

theorem declarations_of_flat {props : Json.Fields} (h : usesBags props = false) :
    (∀ bag ∈ Json.Fields.get? props "advancedStyling", declarations bag = []) ∧
      (∀ e ∈ desktopEntries props, declarations e.2 = []) ∧ collected props .desktop .base = [] := by
  obtain ⟨hown, hentries⟩ := List.forall_mem_cons.1 (desktopBags_flat h)
  have hentries : ∀ e ∈ desktopEntries props, layerOf e.2 .base = [] :=
    fun e he => hentries _ (List.mem_map_of_mem he)
  refine ⟨fun bag hbag => ?_, fun e he => layerOf_base e.2 ▸ hentries e he, ?_⟩
  · rw [ownLayer_base, Option.mem_def.1 hbag] at hown
    exact hown
  · rw [collected_desktop, hown, List.flatMap_eq_nil_iff.2 hentries]
    rfl

/-- Bags that style a node leave its flat keys unread. Otherwise the rule of the element holds exactly
    the flat declarations, and no declaration of a bag gives way to them. -/
theorem bags_or_flat (props : Json.Fields) :
    (StyledByBags props → ∀ other, Agree props other →
      ∀ element, (ofProps props).compile element = (ofProps other).compile element) ∧
    (¬ StyledByBags props →
      (∀ element r, (.rule r ∈ (ofProps props).entries element ∧ r.slot = .base) ↔
        flatDeclarations props ≠ [] ∧ r = ⟨element, .base, flatDeclarations props⟩) ∧
      (∀ bag ∈ Json.Fields.get? props "advancedStyling", declarations bag = []) ∧
      (∀ e ∈ desktopEntries props, declarations e.2 = []) ∧ collected props .desktop .base = []) := by
  rw [← usesBags_iff]
  refine ⟨fun hbags other hagree element => ?_, fun hflat => ?_⟩
  · rw [ofProps_congr hagree hbags]
  · have hflat := Bool.eq_false_iff.2 hflat
    refine ⟨fun element r => ?_, declarations_of_flat hflat⟩
    rw [base_rule_iff, layer_flat hflat]

theorem bags_or_flat_padding :
    let red : Text × Json := ("advancedStyling", .object [("color", .string "red")])
    let blank : Text × Json := ("advancedStyling", .object [("color", .string " ")])
    let padding : Text × Json := ("padding", .number (.integer 10))
    StyledByBags [red, padding] ∧ Agree [red, padding] [red, ("textColor", .string "blue")] ∧
    (ofProps [red, padding]).compile "x" = (ofProps [red, ("textColor", .string "blue")]).compile "x" ∧
    ¬ StyledByBags [blank, padding] ∧
    ∀ r, (.rule r ∈ (ofProps [blank, padding]).entries "x" ∧ r.slot = .base) ↔
      r = ⟨"x", .base, [⟨"padding", "10px"⟩]⟩ := by
  intro red blank padding
  have hbags : StyledByBags [red, padding] := .inl ⟨_, rfl, _, List.mem_cons_self, by decide⟩
  have hagree : Agree [red, padding] [red, ("textColor", .string "blue")] := by
    intro k hk
    simp only [bagKeys, List.mem_cons, List.not_mem_nil, or_false] at hk
    rcases hk with rfl | rfl | rfl | rfl | rfl <;> rfl
  have hflat : ¬ StyledByBags [blank, padding] := by
    rw [← usesBags_iff]
    decide
  have hdeclared : flatDeclarations [blank, padding] = [⟨"padding", "10px"⟩] := by decide +kernel
  obtain ⟨hrule, _⟩ := (bags_or_flat [blank, padding]).2 hflat
  refine ⟨hbags, hagree, (bags_or_flat [red, padding]).1 hbags _ hagree "x", hflat, fun r => ?_⟩
  rw [hrule, hdeclared]
  simp

end Layers
end Folio.Style
