import Folio.Proofs.Declarations
import Folio.Proofs.StyleText
import Folio.Render.Walk

set_option autoImplicit false

/-!
# Compiled rules stay within bounds

The declarations of every layer are sound: this is so for all that are read, and it is kept by every way
in which layers are put together. A media block declares nothing that no layer declares. So no rule holds
a character that ends a value or the style element where it should not.
-/
namespace Folio.Style

namespace Breakpoint

theorem chain_induction {P : Breakpoint → Prop} (wide : P desktop)
    (step : ∀ {b w}, b.wider? = some w → P w → P b) (b : Breakpoint) : P b := by
  have htablet : P tablet := step rfl wide
  have hmobile : P mobile := step rfl htablet
  cases b with
  | desktop => exact wide
  | tablet => exact htablet
  | mobile => exact hmobile
  | mobilePortrait => exact step rfl hmobile

theorem mem_narrow {b w : Breakpoint} (h : b.wider? = some w) : b ∈ narrow := by
  cases b with
  | desktop => exact nomatch h
  | _ => decide

theorem exists_wider {b : Breakpoint} (hb : b ∈ Breakpoint.narrow) : ∃ w, b.wider? = some w := by
  cases b with
  | desktop => exact absurd hb (by decide)
  | _ => exact ⟨_, rfl⟩

end Breakpoint

def Layer.Sound (layer : Layer) : Prop := ∀ slot, ∀ d ∈ layer slot, d.Sound

theorem sound_empty : Layer.empty.Sound := by
  intro slot d hd
  simp [Layer.empty] at hd

theorem Layer.Sound.set {layer : Layer} (h : layer.Sound) (slot : Slot) {ds : List Declaration}
    (hd : ∀ d ∈ ds, d.Sound) : (layer.set slot ds).Sound := by
  intro s
  unfold Layer.set
  split
  · exact hd
  · exact h s

namespace Layers

theorem sound_addState {layer : Layer} (h : layer.Sound) (entry : Text × Json) :
    (addState layer entry).Sound := by
  unfold addState
  split
  · exact h
  · dsimp only
    split
    · exact h
    · exact h.set _ (sound_declarations entry.2)

theorem sound_addStates {layer : Layer} (h : layer.Sound) (states : Option Json) :
    (addStates layer states).Sound := by
  unfold addStates
  split
  · exact List.foldlRecOn (motive := Layer.Sound) _ addState h
      fun _ hl entry _ => sound_addState hl entry
  · exact h

theorem sound_layerOf (bag : Json) : (layerOf bag).Sound :=
  sound_addStates (sound_empty.set _ (sound_declarations bag)) _

theorem sound_ownLayer (props : Json.Fields) : (ownLayer props).Sound :=
  sound_addStates (sound_empty.set _ (sound_declarations _)) _

theorem sound_setLayer {all : Breakpoint → Layer} (h : ∀ b, (all b).Sound) (b : Breakpoint)
    {layer : Layer} (hl : layer.Sound) : ∀ c, (setLayer all b layer c).Sound := by
  intro c
  unfold setLayer
  split
  · exact hl
  · exact h c

theorem sound_addBreakpoint {all : Breakpoint → Layer} (h : ∀ b, (all b).Sound)
    (entry : Text × Json) : ∀ b, (addBreakpoint all entry b).Sound := by
  unfold addBreakpoint
  cases Breakpoint.parse? entry.1 with
  | none => exact h
  | some b =>
    cases b with
    | desktop =>
      refine sound_setLayer h _ fun slot d hd => ?_
      exact (Declarations.mem_overlayAll hd).elim (h .desktop slot d) (sound_layerOf entry.2 slot d)
    | _ => exact sound_setLayer h _ (sound_layerOf entry.2)

def Sound (layers : Layers) : Prop := ∀ b, (layers.layer b).Sound

theorem sound_ofProps (props : Json.Fields) : (ofProps props).Sound := by
  have hstart : ∀ b, (setLayer (fun _ => Layer.empty) .desktop (ownLayer props) b).Sound :=
    sound_setLayer (fun _ => sound_empty) _ (sound_ownLayer props)
  have hcollected := List.foldlRecOn
    (motive := fun all : Breakpoint → Layer => ∀ b, (all b).Sound) (breakpointEntries props)
    addBreakpoint hstart fun _ h entry _ => sound_addBreakpoint h entry
  unfold ofProps
  dsimp only
  split
  · exact hcollected
  · exact sound_setLayer hcollected _ ((hcollected .desktop).set _ (sound_flatDeclarations props))

theorem layer_withDefaults (layers : Layers) (defaults : List Declaration) (b : Breakpoint)
    (slot : Slot) : (layers.withDefaults defaults).layer b slot =
      if b = .desktop ∧ slot = .base then
        (defaults.filter fun d => (valueOf? (layers.layer .desktop .base) d.property).isNone) ++
          layers.layer .desktop .base
      else layers.layer b slot := by
  by_cases hb : b = .desktop
  · subst hb
    by_cases hslot : slot = .base <;> simp [Layers.withDefaults, setLayer, Layer.set, hslot]
  · simp [Layers.withDefaults, setLayer, hb]

theorem mem_withDefaults {layers : Layers} {defaults : List Declaration} {b : Breakpoint} {slot : Slot}
    {d : Declaration} (h : d ∈ (layers.withDefaults defaults).layer b slot) :
    d ∈ defaults ∨ d ∈ layers.layer b slot := by
  rw [layer_withDefaults] at h
  split at h
  · rename_i hbase
    obtain ⟨rfl, rfl⟩ := hbase
    exact (List.mem_append.1 h).imp_left fun h => (List.mem_filter.1 h).1
  · exact .inr h

theorem valueAt_eq (layers : Layers) (slot : Slot) (property : Text) :
    layers.valueAt slot property =
      ⟨valueOf? (layers.layer .desktop slot) property,
        (valueOf? (layers.layer .tablet slot) property).map some,
        (valueOf? (layers.layer .mobile slot) property).map some,
        (valueOf? (layers.layer .mobilePortrait slot) property).map some⟩ := by
  simp only [valueAt, Breakpoint.narrow, List.foldl_cons, List.foldl_nil]
  cases valueOf? (layers.layer .tablet slot) property <;>
    cases valueOf? (layers.layer .mobile slot) property <;>
      cases valueOf? (layers.layer .mobilePortrait slot) property <;> rfl

theorem resolve_valueAt_desktop (layers : Layers) (slot : Slot) (property : Text) :
    (layers.valueAt slot property).resolve .desktop =
      valueOf? (layers.layer .desktop slot) property := by
  rw [valueAt_eq]
  rfl

/-- What a breakpoint leaves open is resolved one breakpoint wider. -/
theorem resolve_valueAt (layers : Layers) {b w : Breakpoint} (h : b.wider? = some w) (slot : Slot)
    (property : Text) :
    (layers.valueAt slot property).resolve b =
      (valueOf? (layers.layer b slot) property).or ((layers.valueAt slot property).resolve w) := by
  have hor : ∀ o wide : Option Text, (o.map some).getD wide = o.or wide := by
    intro o wide
    cases o <;> rfl
  rw [valueAt_eq]
  cases b <;> cases h <;> exact hor _ _

theorem exists_declared {layers : Layers} {slot : Slot} {property value : Text} {b : Breakpoint}
    (h : (layers.valueAt slot property).resolve b = some value) :
    ∃ c, ⟨property, value⟩ ∈ layers.layer c slot := by
  induction b using Breakpoint.chain_induction with
  | wide => exact ⟨.desktop, Declarations.mem_of_valueOf? (resolve_valueAt_desktop layers slot property ▸ h)⟩
  | @step b w hw ih =>
    rw [resolve_valueAt layers hw] at h
    rcases Option.or_eq_some_iff.1 h with h | ⟨_, h⟩
    · exact ⟨b, Declarations.mem_of_valueOf? h⟩
    · exact ih h

theorem mem_distinct {a : Text} {l : List Text} : a ∈ distinct l ↔ a ∈ l := by
  induction l with
  | nil => simp [distinct]
  | cons b l ih => by_cases h : a = b <;> simp [distinct, ih, h]

theorem mem_of_mem_changedAt {layers : Layers} {b : Breakpoint} {slot : Slot} {d : Declaration}
    (h : d ∈ layers.changedAt b slot) : ∃ c, d ∈ layers.layer c slot := by
  obtain ⟨property, _, h⟩ := List.mem_filterMap.1 h
  dsimp only at h
  split at h
  · rename_i value hvalue
    split at h
    · exact nomatch h
    · rw [← Option.some.inj h]
      exact exists_declared hvalue
  · exact nomatch h

end Layers

def Layer.Enclosed (layer : Layer) : Prop := ∀ slot, ∀ d ∈ layer slot, d.Enclosed

namespace Layers

/-- The layers of a node: enclosed declarations, and text that ends no style element. -/
structure Enclosed (layers : Layers) : Prop where
  layer : ∀ b, (layers.layer b).Enclosed
  custom : ∀ css ∈ layers.custom, Closeless css

theorem closeless_customOf (props : Json.Fields) : ∀ css ∈ customOf props, Closeless css := by
  intro css h
  obtain ⟨h, _⟩ := Option.filter_eq_some_iff.1 h
  obtain ⟨written, _, rfl⟩ := Option.map_eq_some_iff.1 h
  exact (closeless_neutralizeClose _).mono (Text.trim_isInfix _)

theorem enclosed_ofProps (props : Json.Fields) : (ofProps props).Enclosed where
  layer := fun b slot d hd => (sound_ofProps props b slot d hd).enclosed
  custom := closeless_customOf props

theorem Enclosed.withDefaults {layers : Layers} (h : layers.Enclosed) {defaults : List Declaration}
    (hd : ∀ d ∈ defaults, d.Enclosed) : (layers.withDefaults defaults).Enclosed where
  layer := fun b slot d hm => (mem_withDefaults hm).elim (hd d) (h.layer b slot d)
  custom := h.custom

theorem enclosed_changedAt {layers : Layers} (h : layers.Enclosed) (b : Breakpoint) (slot : Slot) :
    ∀ d ∈ layers.changedAt b slot, d.Enclosed := by
  intro d hd
  obtain ⟨c, hc⟩ := mem_of_mem_changedAt hd
  exact h.layer c slot d hc

end Layers

theorem not_mem_open_write {r : Rule} (he : Identity.IsId r.element)
    (hd : ∀ d ∈ r.declarations, d.Enclosed) : '<' ∉ r.write := by
  have helement := (enclosed_of_isId he).not_mem_open
  have hsuffix : '<' ∉ r.slot.suffix := by
    cases r.slot with
    | base => decide
    | state s => cases s <;> decide
  have hbody : '<' ∉ r.declarations.flatMap Rule.writeDeclaration := by
    intro hm
    obtain ⟨d, hd', hm⟩ := List.mem_flatMap.1 hm
    have hp := (enclosed_of_isId (hd d hd').property).not_mem_open
    have hv := (hd d hd').value.not_mem_open
    simp [Rule.writeDeclaration, hp, hv] at hm
  simp [Rule.write, Rule.selector, helement, hsuffix, hbody]

namespace Layers

theorem mem_rulesOf {element : Text} {declared : Slot → List Declaration} {r : Rule} :
    r ∈ rulesOf element declared ↔ ∃ slot, declared slot ≠ [] ∧ r = ⟨element, slot, declared slot⟩ := by
  have hall : ∀ slot, slot ∈ Slot.all := by
    intro slot
    cases slot with
    | base => decide
    | state s => cases s <;> decide
  constructor
  · intro h
    obtain ⟨slot, _, h⟩ := List.mem_filterMap.1 h
    dsimp only at h
    split at h
    · exact nomatch h
    · rename_i hne
      exact ⟨slot, fun e => hne (List.isEmpty_iff.2 e), (Option.some.inj h).symm⟩
  · rintro ⟨slot, hne, rfl⟩
    refine List.mem_filterMap.2 ⟨slot, hall slot, ?_⟩
    dsimp only
    rw [if_neg (mt List.isEmpty_iff.1 hne)]

theorem eq_of_mem_rulesOf {element : Text} {declared : Slot → List Declaration} {r : Rule}
    (h : r ∈ rulesOf element declared) : r = ⟨element, r.slot, declared r.slot⟩ := by
  obtain ⟨slot, _, rfl⟩ := mem_rulesOf.1 h
  rfl

def ruled (layers : Layers) (element : Text) : List Entry :=
  (rulesOf element (layers.layer .desktop)).map .rule ++
    Breakpoint.narrow.filterMap (layers.mediaOf element)

theorem entries_eq (layers : Layers) (element : Text) :
    layers.entries element = layers.ruled element ++ layers.custom.toList.map .custom := rfl

theorem mem_ruled {layers : Layers} {element : Text} {e : Entry} (h : e ∈ layers.ruled element) :
    (∃ r ∈ rulesOf element (layers.layer .desktop), e = .rule r) ∨
      ∃ b ∈ Breakpoint.narrow, rulesOf element (layers.changedAt b) ≠ [] ∧
        e = .media b (rulesOf element (layers.changedAt b)) := by
  rcases List.mem_append.1 h with h | h
  · obtain ⟨r, hr, rfl⟩ := List.mem_map.1 h
    exact .inl ⟨r, hr, rfl⟩
  · obtain ⟨b, hb, h⟩ := List.mem_filterMap.1 h
    refine .inr ⟨b, hb, ?_⟩
    unfold mediaOf at h
    dsimp only at h
    split at h
    · simp at h
    · rename_i hne
      exact ⟨fun e => hne (List.isEmpty_iff.2 e), (Option.some.inj h).symm⟩

theorem not_mem_open_of_mem_rulesOf {element : Text} (he : Identity.IsId element)
    {declared : Slot → List Declaration} (hd : ∀ slot, ∀ d ∈ declared slot, d.Enclosed) :
    ∀ r ∈ rulesOf element declared, '<' ∉ r.write := by
  intro r hr
  rw [eq_of_mem_rulesOf hr]
  exact not_mem_open_write he (hd r.slot)

/-- No entry for an element ends the style element. -/
theorem closeless_of_mem_entries {layers : Layers} (h : layers.Enclosed) {element : Text}
    (he : Identity.IsId element) : ∀ e ∈ layers.entries element, Closeless e.write := by
  intro e hm
  rw [entries_eq] at hm
  rcases List.mem_append.1 hm with hm | hm
  · obtain ⟨r, hr, rfl⟩ | ⟨b, _, _, rfl⟩ := mem_ruled hm
    · exact closeless_of_not_mem (not_mem_open_of_mem_rulesOf he (h.layer .desktop) r hr)
    · have hquery : '<' ∉ b.mediaQuery?.getD [] := by cases b <;> decide
      have hrules : '<' ∉ Text.join "\n"
          ((rulesOf element (layers.changedAt b)).map fun r => "  " ++ r.write) := by
        intro hm
        refine Text.forall_mem_join (P := fun c => c ≠ '<') (by decide) ?_ '<' hm rfl
        intro t ht c hc e
        obtain ⟨r, hr, rfl⟩ := List.mem_map.1 ht
        have hr := not_mem_open_of_mem_rulesOf he (enclosed_changedAt h b) r hr
        subst e
        simp [hr] at hc
      refine closeless_of_not_mem ?_
      simp only [Entry.write, List.mem_append, not_or]
      exact ⟨⟨⟨hquery, by decide⟩, hrules⟩, by decide⟩
  · obtain ⟨css, hc, rfl⟩ := List.mem_map.1 hm
    exact h.custom css (Option.mem_toList.1 hc)

end Layers

end Folio.Style

namespace Folio.Render

theorem closeless_of_mem_ownEntries (n : Node) {id : Text} (hid : Identity.IsId id) :
    ∀ e ∈ ownEntries n id, Style.Closeless e.write := by
  refine Style.Layers.closeless_of_mem_entries ((Style.Layers.enclosed_ofProps _).withDefaults ?_) hid
  cases Component.ofTag? n.typeTag with
  | none => simp
  | some kind => exact enclosed_defaults kind n.props

end Folio.Render
