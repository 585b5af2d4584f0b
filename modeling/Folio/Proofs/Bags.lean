import Folio.Proofs.Cascade

set_option autoImplicit false

/-!
# Bags of declarations

The declarations of a bag are a selection from the property table, in its order. Every slot of a layer
holds those of one bag; only on the desktop further bags are laid over the node's own, which leaves the
properties in the order in which the bags, one after another, name them first. So a slot declares every
property once, each is one of the table, and its value is safe.
-/
namespace Folio.Style

theorem distinct_filter (p : Text → Bool) (l : List Text) :
    Layers.distinct (l.filter p) = (Layers.distinct l).filter p := by
  induction l with
  | nil => rfl
  | cons a l ih =>
    rw [Layers.distinct, List.filter_cons]
    by_cases ha : p a = true
    · rw [if_pos ha, Layers.distinct, ih, List.filter_cons_of_pos ha, List.filter_filter,
        List.filter_filter]
      congr 2
      funext b
      exact Bool.and_comm _ _
    · rw [if_neg ha, ih, List.filter_cons_of_neg ha, List.filter_filter]
      refine List.filter_congr fun b _ => ?_
      by_cases hb : b = a
      · simp [hb, ha]
      · simp [hb]

theorem nodup_distinct (l : List Text) : (Layers.distinct l).Nodup := by
  induction l with
  | nil => exact List.nodup_nil
  | cons a l ih =>
    refine List.nodup_cons.2 ⟨fun hm => ?_, ih.filter _⟩
    simpa using (List.mem_filter.1 hm).2

theorem distinct_of_nodup {l : List Text} (h : l.Nodup) : Layers.distinct l = l := by
  induction l with
  | nil => rfl
  | cons a l ih =>
    obtain ⟨ha, hl⟩ := List.nodup_cons.1 h
    rw [Layers.distinct, ih hl, List.filter_eq_self.2]
    intro b hb
    simpa using fun e : b = a => ha (e ▸ hb)

theorem distinct_append_cons_of_mem {a : Text} {l : List Text} (h : a ∈ l) (m : List Text) :
    Layers.distinct (l ++ a :: m) = Layers.distinct (l ++ m) := by
  induction l with
  | nil => exact absurd h List.not_mem_nil
  | cons b l ih =>
    rw [List.cons_append, List.cons_append, Layers.distinct, Layers.distinct]
    by_cases hb : a = b
    · subst hb
      rw [← distinct_filter, ← distinct_filter, List.filter_append, List.filter_append,
        List.filter_cons_of_neg (by simp)]
    · rw [ih ((List.mem_cons.1 h).resolve_left hb)]

theorem find?_distinct (p : Text → Bool) (l : List Text) :
    (Layers.distinct l).find? p = l.find? p := by
  induction l with
  | nil => rfl
  | cons a l ih =>
    rw [Layers.distinct, List.find?_cons, List.find?_cons, List.find?_filter, ← ih]
    cases ha : p a with
    | true => rfl
    | false =>
      -- what is passed over is `a` itself, which is not looked for
      refine congrArg (fun q => (Layers.distinct l).find? q) (funext fun b => ?_)
      by_cases hb : b = a
      · simp [hb, ha]
      · simp [hb]

namespace Declarations

def names (ds : List Declaration) : List Text := ds.map Declaration.property

theorem names_overlay (ds : List Declaration) (d : Declaration) :
    names (overlay ds d) = if d.property ∈ names ds then names ds else names ds ++ [d.property] := by
  induction ds with
  | nil => rfl
  | cons e ds ih =>
    rw [overlay]
    by_cases he : e.property = d.property
    · rw [if_pos he, if_pos (he ▸ List.mem_map_of_mem List.mem_cons_self)]
      rfl
    · rw [if_neg he]
      change e.property :: names (overlay ds d) = _
      rw [ih]
      have hmem : d.property ∈ names (e :: ds) ↔ d.property ∈ names ds := by
        simp [names, Ne.symm he]
      by_cases hd : d.property ∈ names ds
      · rw [if_pos hd, if_pos (hmem.2 hd)]
        rfl
      · rw [if_neg hd, if_neg (mt hmem.1 hd)]
        rfl

theorem names_overlayAll {ds : List Declaration} (h : (names ds).Nodup) (extra : List Declaration) :
    names (overlayAll ds extra) = Layers.distinct (names ds ++ names extra) := by
  induction extra generalizing ds with
  | nil => exact (List.append_nil (names ds)).symm ▸ (distinct_of_nodup h).symm
  | cons d extra ih =>
    have hone := names_overlay ds d
    change names (overlayAll (overlay ds d) extra) = Layers.distinct (names ds ++ d.property :: names extra)
    by_cases hd : d.property ∈ names ds
    · rw [if_pos hd] at hone
      rw [ih (hone.symm ▸ h), hone, distinct_append_cons_of_mem hd]
    · rw [if_neg hd] at hone
      have hnodup : (names ds ++ [d.property]).Nodup :=
        List.nodup_append.2 ⟨h, List.nodup_singleton _, by
          intro a ha b hb e
          exact hd (List.mem_singleton.1 hb ▸ e ▸ ha)⟩
      rw [ih (hone.symm ▸ hnodup), hone, List.append_assoc]
      rfl

end Declarations

namespace Declarations

theorem names_filterMap {α : Type} {f : α → Option Declaration} {name : α → Text}
    (h : ∀ a d, f a = some d → d.property = name a) (l : List α) :
    (names (l.filterMap f)).Sublist (l.map name) := by
  induction l with
  | nil => exact List.Sublist.slnil
  | cons a l ih =>
    cases hd : f a with
    | none =>
      rw [List.filterMap_cons_none hd]
      exact ih.cons (name a)
    | some d =>
      rw [List.filterMap_cons_some hd, List.map_cons, ← h a d hd]
      exact ih.cons_cons d.property

theorem names_declarations (bag : Json) : (names (declarations bag)).Sublist propertyNames := by
  cases bag with
  | object fields =>
    have hname : ∀ (p : String × ValueKind) d, declaration? fields (key p.1) p.1 p.2 = some d →
        d.property = p.1.toList := by
      intro p d hd
      obtain ⟨value, _, rfl⟩ := Option.map_eq_some_iff.1 hd
      rfl
    exact names_filterMap hname properties
  | _ => exact List.nil_sublist _

theorem nodup_propertyNames : propertyNames.Nodup := by decide +kernel

theorem nodup_declarations (bag : Json) : (names (declarations bag)).Nodup :=
  nodup_propertyNames.sublist (names_declarations bag)

theorem nodup_firstOfEach (ds : List Declaration) : (names (firstOfEach ds)).Nodup := by
  induction ds with
  | nil => exact List.nodup_nil
  | cons d ds ih =>
    refine List.nodup_cons.2 ⟨fun hm => ?_, ih.sublist (List.filter_sublist.map _)⟩
    obtain ⟨e, he, heq⟩ := List.mem_map.1 hm
    simpa [heq] using (List.mem_filter.1 he).2

end Declarations

namespace Layers

def OfBags (layer : Layer) : Prop := ∀ slot, ∃ bag, layer slot = declarations bag

theorem ofBags_empty : OfBags Layer.empty := fun _ => ⟨.null, rfl⟩

theorem OfBags.set {layer : Layer} (h : OfBags layer) (slot : Slot) (bag : Json) :
    OfBags (layer.set slot (declarations bag)) := by
  intro s
  unfold Layer.set
  split
  · exact ⟨bag, rfl⟩
  · exact h s

theorem ofBags_addStates {layer : Layer} (h : OfBags layer) (states : Option Json) :
    OfBags (addStates layer states) := by
  unfold addStates
  split
  · refine List.foldlRecOn (motive := OfBags) _ addState h fun layer hl entry _ => ?_
    unfold addState
    split
    · exact hl
    · dsimp only
      split
      · exact hl
      · exact hl.set _ entry.2
  · exact h

theorem ofBags_layerOf (bag : Json) : OfBags (layerOf bag) :=
  ofBags_addStates (ofBags_empty.set .base bag) _

theorem ofBags_ownLayer (props : Json.Fields) : OfBags (ownLayer props) :=
  ofBags_addStates (ofBags_empty.set .base _) _

theorem addStates_base (layer : Layer) (states : Option Json) :
    addStates layer states .base = layer .base := by
  have hstep : ∀ (l : Layer) (entry : Text × Json), addState l entry .base = l .base := by
    intro l entry
    unfold addState
    cases PseudoState.parse? entry.1 with
    | none => rfl
    | some s =>
      dsimp only
      split
      · rfl
      · simp [Layer.set]
  unfold addStates
  split
  · exact List.foldlRecOn (motive := fun l : Layer => l .base = layer .base) _ addState rfl
      fun l hl entry _ => (hstep l entry).trans hl
  · rfl

theorem ownLayer_base (props : Json.Fields) :
    ownLayer props .base = declarations ((Json.Fields.get? props "advancedStyling").getD .null) :=
  addStates_base _ _

theorem layerOf_base (bag : Json) : layerOf bag .base = declarations bag := addStates_base _ _

def desktopEntries (props : Json.Fields) : Json.Fields :=
  (breakpointEntries props).filter fun e => Breakpoint.parse? e.1 = some .desktop

/-- The bags that style a slot on the desktop: the node's own, and those laid over it. -/
def desktopBags (props : Json.Fields) (slot : Slot) : List (List Declaration) :=
  ownLayer props slot :: (desktopEntries props).map fun e => layerOf e.2 slot

def narrowBags (layers : Layers) (slot : Slot) : List (List Declaration) :=
  Breakpoint.narrow.map fun b => layers.layer b slot

theorem addBreakpoint_desktop (all : Breakpoint → Layer) (entry : Text × Json) (slot : Slot) :
    addBreakpoint all entry .desktop slot =
      if Breakpoint.parse? entry.1 = some .desktop then
        overlayAll (all .desktop slot) (layerOf entry.2 slot)
      else all .desktop slot := by
  unfold addBreakpoint
  cases Breakpoint.parse? entry.1 with
  | none => rfl
  | some b => cases b <;> rfl

theorem ofBags_addBreakpoint {all : Breakpoint → Layer} (h : ∀ b, b ≠ .desktop → OfBags (all b))
    (entry : Text × Json) : ∀ b, b ≠ .desktop → OfBags (addBreakpoint all entry b) := by
  have hset : ∀ c {layer : Layer}, (c ≠ .desktop → OfBags layer) →
      ∀ b, b ≠ .desktop → OfBags (setLayer all c layer b) := by
    intro c layer hl b hb
    unfold setLayer
    split
    · rename_i hbc
      exact hl (hbc ▸ hb)
    · exact h b hb
  unfold addBreakpoint
  cases Breakpoint.parse? entry.1 with
  | none => exact h
  | some c =>
    cases c with
    | desktop => exact hset .desktop fun hne => absurd rfl hne
    | _ => exact hset _ fun _ => ofBags_layerOf entry.2

def collected (props : Json.Fields) : Breakpoint → Layer :=
  (breakpointEntries props).foldl addBreakpoint
    (setLayer (fun _ => Layer.empty) .desktop (ownLayer props))

theorem layer_ofProps (props : Json.Fields) : (ofProps props).layer =
    if usesBags props then collected props
    else setLayer (collected props) .desktop
      ((collected props .desktop).set .base (flatDeclarations props)) := rfl

theorem collected_desktop (props : Json.Fields) (slot : Slot) :
    collected props .desktop slot =
      overlayAll (ownLayer props slot) ((desktopEntries props).flatMap fun e => layerOf e.2 slot) := by
  have hfold : ∀ (entries : Json.Fields) (all : Breakpoint → Layer),
      entries.foldl addBreakpoint all .desktop slot = overlayAll (all .desktop slot)
        ((entries.filter fun e => Breakpoint.parse? e.1 = some .desktop).flatMap fun e =>
          layerOf e.2 slot) := by
    intro entries
    induction entries with
    | nil => exact fun _ => rfl
    | cons e entries ih =>
      intro all
      rw [List.foldl_cons, ih, addBreakpoint_desktop]
      by_cases he : Breakpoint.parse? e.1 = some .desktop
      · rw [if_pos he, List.filter_cons_of_pos (by simpa using he), List.flatMap_cons, overlayAll,
          overlayAll, overlayAll, List.foldl_append]
      · rw [if_neg he, List.filter_cons_of_neg (by simpa using he)]
  exact hfold _ _

theorem ofBags_narrow (props : Json.Fields) {b : Breakpoint} (hb : b ≠ .desktop) :
    OfBags ((ofProps props).layer b) := by
  have hstart : ∀ b, b ≠ .desktop →
      OfBags (setLayer (fun _ => Layer.empty) .desktop (ownLayer props) b) := by
    intro b hb
    unfold setLayer
    rw [if_neg hb]
    exact ofBags_empty
  have hcollected : ∀ b, b ≠ .desktop → OfBags (collected props b) :=
    List.foldlRecOn (motive := fun all : Breakpoint → Layer => ∀ b, b ≠ .desktop → OfBags (all b)) _
      addBreakpoint hstart fun _ h entry _ => ofBags_addBreakpoint h entry
  rw [layer_ofProps]
  split
  · exact hcollected b hb
  · unfold setLayer
    rw [if_neg hb]
    exact hcollected b hb

theorem layer_desktop {props : Json.Fields} {slot : Slot} (h : usesBags props = true ∨ slot ≠ .base) :
    (ofProps props).layer .desktop slot = collected props .desktop slot := by
  rw [layer_ofProps]
  split
  · rfl
  · rename_i hflat
    have hslot := h.resolve_left hflat
    simp [setLayer, Layer.set, hslot]

theorem layer_flat {props : Json.Fields} (h : usesBags props = false) :
    (ofProps props).layer .desktop .base = flatDeclarations props := by
  rw [layer_ofProps, if_neg (by simp [h])]
  simp [setLayer, Layer.set]

open Declarations

theorem OfBags.nodup {layer : Layer} (h : OfBags layer) (slot : Slot) : (names (layer slot)).Nodup := by
  obtain ⟨bag, hbag⟩ := h slot
  exact hbag ▸ nodup_declarations bag

/-- The properties of a slot on the desktop stand as the bags name them. -/
theorem names_collected (props : Json.Fields) (slot : Slot) :
    names (collected props .desktop slot) = distinct ((desktopBags props slot).flatMap names) := by
  rw [collected_desktop, names_overlayAll ((ofBags_ownLayer props).nodup slot), desktopBags,
    List.flatMap_cons, List.flatMap_map]
  exact congrArg (fun l => distinct (names (ownLayer props slot) ++ l)) List.map_flatMap

theorem narrowProperties_eq (layers : Layers) (slot : Slot) :
    layers.narrowProperties slot = distinct ((layers.narrowBags slot).flatMap names) := by
  rw [narrowBags, List.flatMap_map]
  rfl

/-- A media block names the properties that change, in the order in which narrow bags name them. -/
theorem names_changedAt (layers : Layers) {b w : Breakpoint} (h : b.wider? = some w) (slot : Slot) :
    names (layers.changedAt b slot) =
      (layers.narrowProperties slot).filter fun p => (layers.change? b w slot p).isSome := by
  rw [changedAt_eq layers h]
  induction layers.narrowProperties slot with
  | nil => rfl
  | cons p ps ih =>
    cases hv : layers.change? b w slot p with
    | none =>
      rw [List.filterMap_cons_none (by simp [hv]), List.filter_cons_of_neg (by simp [hv]), ih]
    | some value =>
      rw [List.filterMap_cons, List.filter_cons_of_pos (by simp [hv]), ← ih]
      simp only [hv, Option.map_some]
      rfl

theorem write?_blank (kind : ValueKind) {s : Text} (h : Text.isBlankText s = true) :
    (Value.text s).write? kind = none := by
  have htrim : Text.trim s = [] := by
    have hall : ∀ c ∈ s, Text.isBlank c = true := List.all_eq_true.1 h
    rw [Text.trim, Text.trimStart, List.dropWhile_eq_nil_iff.2 hall]
    rfl
  rw [Value.write?, Value.unchecked?, htrim]
  rfl

theorem declarations_of_unset {bag : Json} (h : hasAnyKeySet (some bag) = false) :
    declarations bag = [] := by
  cases bag with
  | object fields =>
    have hunset : ∀ f ∈ fields, isSet f.2 = false := by simpa [hasAnyKeySet] using h
    refine List.filterMap_eq_nil_iff.2 fun p _ => ?_
    have hvalue : ∀ value, Json.Fields.get? fields (key p.1) = some value →
        (Value.ofJson? value).bind (Value.write? p.2) = none := by
      intro value hv
      have hset := hunset (key p.1, value) (Json.Fields.mem_of_get? hv)
      cases value with
      | null => rfl
      | string s => exact write?_blank p.2 (by simpa [isSet] using hset)
      | _ => exact nomatch hset
    change (((Json.Fields.get? fields (key p.1)).bind Value.ofJson?).bind (Value.write? p.2)).map _ = none
    cases hv : Json.Fields.get? fields (key p.1) with
    | none => rfl
    | some value => rw [Option.bind_some, hvalue value hv, Option.map_none]
  | _ => rfl

theorem desktopBags_flat {props : Json.Fields} (h : usesBags props = false) :
    ∀ bag ∈ desktopBags props .base, bag = [] := by
  obtain ⟨hown, hentries⟩ := Bool.or_eq_false_iff.1 h
  refine List.forall_mem_cons.2 ⟨?_, fun bag hbag => ?_⟩
  · rw [ownLayer_base]
    cases hadvanced : Json.Fields.get? props "advancedStyling" with
    | none => rfl
    | some bag => exact declarations_of_unset (hadvanced ▸ hown)
  · obtain ⟨e, he, rfl⟩ := List.mem_map.1 hbag
    obtain ⟨hmem, hname⟩ := List.mem_filter.1 he
    rw [layerOf_base]
    have hnone := List.any_eq_false.1 hentries e hmem
    have hname : Breakpoint.parse? e.1 = some .desktop := by simpa using hname
    simpa [hname] using hnone

/-- In every slot each property of the table is declared once at most, and its value is safe. -/
structure Proper (layers : Layers) : Prop where
  sound : ∀ b slot, ∀ d ∈ layers.layer b slot, d.Sound
  once : ∀ b slot, (names (layers.layer b slot)).Nodup

theorem desktop_cases (props : Json.Fields) (slot : Slot) :
    (ofProps props).layer .desktop slot = collected props .desktop slot ∨
      usesBags props = false ∧ slot = .base ∧
        (ofProps props).layer .desktop slot = flatDeclarations props := by
  by_cases hbags : usesBags props = true
  · exact .inl (layer_desktop (.inl hbags))
  · by_cases hslot : slot = .base
    · have hflat := Bool.eq_false_iff.2 hbags
      exact .inr ⟨hflat, hslot, hslot ▸ layer_flat hflat⟩
    · exact .inl (layer_desktop (.inr hslot))

theorem proper_ofProps (props : Json.Fields) : (ofProps props).Proper where
  sound := sound_ofProps props
  once := by
    intro b slot
    by_cases hb : b = .desktop
    · subst hb
      obtain he | ⟨_, _, he⟩ := desktop_cases props slot
      · rw [he, names_collected]
        exact nodup_distinct _
      · rw [he]
        exact nodup_firstOfEach _
    · exact (ofBags_narrow props hb).nodup slot

theorem Proper.withDefaults {layers : Layers} (h : layers.Proper) {defaults : List Declaration}
    (hsound : ∀ d ∈ defaults, d.Sound) (honce : (names defaults).Nodup) :
    (layers.withDefaults defaults).Proper where
  sound := fun b slot d hd => (mem_withDefaults hd).elim (hsound d) (h.sound b slot d)
  once := by
    intro b slot
    rw [layer_withDefaults]
    split
    · rw [names, List.map_append, List.nodup_append]
      refine ⟨honce.sublist (List.filter_sublist.map _), h.once .desktop .base, ?_⟩
      rintro a ha b hb rfl
      obtain ⟨d, hd, rfl⟩ := List.mem_map.1 ha
      obtain ⟨e, he, heq⟩ := List.mem_map.1 hb
      have hnone := (List.mem_filter.1 hd).2
      simp [valueOf?] at hnone
      exact hnone e he heq
    · exact h.once b slot

theorem Proper.changedAt {layers : Layers} (h : layers.Proper) {b : Breakpoint}
    (hb : b ∈ Breakpoint.narrow) (slot : Slot) :
    (∀ d ∈ layers.changedAt b slot, d.Sound) ∧ (names (layers.changedAt b slot)).Nodup := by
  constructor
  · intro d hd
    obtain ⟨c, hc⟩ := mem_of_mem_changedAt hd
    exact h.sound c slot d hc
  · obtain ⟨w, hw⟩ := Breakpoint.exists_wider hb
    rw [names_changedAt layers hw]
    exact (nodup_distinct _).filter _

end Layers

end Folio.Style
