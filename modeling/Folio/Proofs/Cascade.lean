import Folio.Proofs.Sheet

set_option autoImplicit false

/-!
# The cascade of compiled rules

At a breakpoint the base rules hold together with the media blocks from the tablet down to it, and of
several declarations of a property the last one counts. A media block leaves out what does not change,
and still the value in force at every breakpoint is the resolved one: going one breakpoint down either
puts the new value last or leaves in force what was.
-/
namespace Folio.Style

namespace Breakpoint

/-- Whether the media block of a breakpoint holds on pages as narrow as another one. -/
def covers (c b : Breakpoint) : Bool :=
  match c.maxWidth?, b.maxWidth? with
  | none, _ => true
  | some _, none => false
  | some w, some v => v ≤ w

example : narrow.filter (·.covers mobile) = [tablet, mobile] := by decide

end Breakpoint

def Entry.rulesAt (b : Breakpoint) : Entry → List Rule
  | rule r => [r]
  | media c rules => if c.covers b then rules else []
  | custom _ => []

def declarationsOf (rules : List Rule) (slot : Slot) : List Declaration :=
  (rules.filter fun r => r.slot = slot).flatMap Rule.declarations

/-- The value in force for a slot at a breakpoint: the last one declared by the rules that hold. -/
def inForce? (entries : List Entry) (b : Breakpoint) (slot : Slot) (property : Text) : Option Text :=
  valueOf? (declarationsOf (entries.flatMap (Entry.rulesAt b)) slot) property

/-- Entries that give every property the value the layers resolve it to, and that say nothing in a
    media block which is in force one breakpoint wider. -/
structure Computes (entries : List Entry) (layers : Layers) : Prop where
  resolved : ∀ b slot property,
    inForce? entries b slot property = (layers.valueAt slot property).resolve b
  unrepeated : ∀ b rules, .media b rules ∈ entries → ∀ r ∈ rules, ∀ d ∈ r.declarations,
    ∀ w, b.wider? = some w → inForce? entries w r.slot d.property ≠ some d.value

theorem declarationsOf_append (rules more : List Rule) (slot : Slot) :
    declarationsOf (rules ++ more) slot = declarationsOf rules slot ++ declarationsOf more slot := by
  rw [declarationsOf, List.filter_append, List.flatMap_append]
  rfl

theorem declarationsOf_flatMap {α : Type} (l : List α) (rules : α → List Rule) (slot : Slot) :
    declarationsOf (l.flatMap rules) slot = l.flatMap fun a => declarationsOf (rules a) slot := by
  rw [declarationsOf, List.filter_flatMap, List.flatMap_assoc]
  rfl

theorem valueOf?_append (ds es : List Declaration) (property : Text) :
    valueOf? (ds ++ es) property = (valueOf? es property).or (valueOf? ds property) := by
  rw [valueOf?, List.filter_append, List.getLast?_append, Option.map_or]
  rfl

theorem valueOf?_eq_none {ds : List Declaration} {property : Text}
    (h : ∀ d ∈ ds, d.property ≠ property) : valueOf? ds property = none := by
  have hnone : ds.filter (fun d => d.property = property) = [] := by simpa using h
  rw [valueOf?, hnone]
  rfl

theorem valueOf?_cons (d : Declaration) (ds : List Declaration) (property : Text) :
    valueOf? (d :: ds) property =
      (valueOf? ds property).or (if d.property = property then some d.value else none) := by
  have h := valueOf?_append [d] ds property
  rw [List.singleton_append] at h
  rw [h]
  by_cases hd : d.property = property <;> simp [valueOf?, hd]

theorem valueOf?_filterMap (value? : Text → Option Text) (properties : List Text) (property : Text) :
    valueOf? (properties.filterMap fun p => (value? p).map fun v => ⟨p, v⟩) property =
      if property ∈ properties then value? property else none := by
  induction properties with
  | nil => rfl
  | cons p ps ih =>
    rw [List.filterMap_cons]
    by_cases hp : p = property
    · subst hp
      by_cases hm : p ∈ ps <;> cases hv : value? p <;> simp [valueOf?_cons, ih, hv, hm]
    · cases hv : value? p <;> simp [valueOf?_cons, ih, hp, Ne.symm hp]

namespace Layers

theorem valueOf?_of_not_mem {layers : Layers} {slot : Slot} {property : Text}
    (h : property ∉ layers.narrowProperties slot) {b : Breakpoint} (hb : b ∈ Breakpoint.narrow) :
    valueOf? (layers.layer b slot) property = none := by
  refine valueOf?_eq_none fun d hd hp => h (mem_distinct.2 ?_)
  exact List.mem_flatMap.2 ⟨b, hb, List.mem_map.2 ⟨d, hd, hp⟩⟩

def change? (layers : Layers) (b w : Breakpoint) (slot : Slot) (property : Text) : Option Text :=
  let v := layers.valueAt slot property
  if v.resolve w = v.resolve b then none else v.resolve b

theorem changedAt_eq (layers : Layers) {b w : Breakpoint} (h : b.wider? = some w) (slot : Slot) :
    layers.changedAt b slot = (layers.narrowProperties slot).filterMap fun property =>
      (layers.change? b w slot property).map fun value => ⟨property, value⟩ := by
  rw [changedAt, h]
  congr 1
  funext property
  dsimp only [Option.getD_some, change?]
  cases (layers.valueAt slot property).resolve b with
  | none => rw [ite_self, Option.map_none]
  | some value =>
    by_cases hw : (layers.valueAt slot property).resolve w = some value <;> simp [hw]

theorem valueOf?_changedAt (layers : Layers) {b w : Breakpoint} (h : b.wider? = some w) (slot : Slot)
    (property : Text) :
    valueOf? (layers.changedAt b slot) property = layers.change? b w slot property := by
  rw [changedAt_eq layers h, valueOf?_filterMap]
  split
  · rfl
  · -- No narrow breakpoint declares the property, so it has the value of the next wider one.
    rename_i hm
    rw [change?, resolve_valueAt layers h, valueOf?_of_not_mem hm (Breakpoint.mem_narrow h),
      Option.none_or, if_pos rfl]

theorem change?_or (layers : Layers) {b w : Breakpoint} (h : b.wider? = some w) (slot : Slot)
    (property : Text) :
    (layers.change? b w slot property).or ((layers.valueAt slot property).resolve w) =
      (layers.valueAt slot property).resolve b := by
  have hopen := resolve_valueAt layers h slot property
  rw [change?]
  by_cases hw : (layers.valueAt slot property).resolve w = (layers.valueAt slot property).resolve b
  · rw [if_pos hw, Option.none_or, hw]
  · rw [if_neg hw, hopen, Option.or_assoc, Option.or_self]

theorem mem_changedAt {layers : Layers} {b w : Breakpoint} (h : b.wider? = some w) {slot : Slot}
    {d : Declaration} (hd : d ∈ layers.changedAt b slot) :
    (layers.valueAt slot d.property).resolve w ≠ some d.value := by
  rw [changedAt_eq layers h] at hd
  obtain ⟨property, _, hd⟩ := List.mem_filterMap.1 hd
  obtain ⟨value, hv, rfl⟩ := Option.map_eq_some_iff.1 hd
  dsimp only [change?] at hv ⊢
  split at hv
  · exact nomatch hv
  · rename_i hw
    rwa [hv] at hw

theorem declarationsOf_rulesOf (element : Text) (declared : Slot → List Declaration) (slot : Slot) :
    declarationsOf (rulesOf element declared) slot = declared slot := by
  have hone : ∀ s, declarationsOf
      (if (declared s).isEmpty then none else some (Rule.mk element s (declared s))).toList slot =
        if s = slot then declared s else [] := by
    intro s
    by_cases hs : s = slot <;> cases hd : declared s <;> simp [declarationsOf, hs]
  rw [rulesOf, List.filterMap_eq_flatMap_toList, declarationsOf_flatMap]
  simp only [hone]
  -- Every slot is tried once, so one of the lists is that of the slot and the others are empty.
  cases slot with
  | base => simp [Slot.all, PseudoState.all]
  | state s => cases s <;> simp [Slot.all, PseudoState.all]

theorem rulesAt_mediaOf (layers : Layers) (element : Text) (b c : Breakpoint) :
    (layers.mediaOf element c).toList.flatMap (Entry.rulesAt b) =
      if c.covers b then rulesOf element (layers.changedAt c) else [] := by
  unfold mediaOf
  cases hr : rulesOf element (layers.changedAt c) with
  | nil => simp
  | cons r rules => simp [Entry.rulesAt]

theorem rulesAt_ruled (layers : Layers) (element : Text) (b : Breakpoint) :
    (layers.ruled element).flatMap (Entry.rulesAt b) =
      rulesOf element (layers.layer .desktop) ++ Breakpoint.narrow.flatMap fun c =>
        if c.covers b then rulesOf element (layers.changedAt c) else [] := by
  rw [ruled, List.flatMap_append, List.flatMap_map, List.filterMap_eq_flatMap_toList,
    List.flatMap_assoc]
  simp only [Entry.rulesAt, List.flatMap_singleton', rulesAt_mediaOf]

/-- One breakpoint down, the rules of its media block come after those that held before. -/
theorem rulesAt_ruled_wider (layers : Layers) (element : Text) {b w : Breakpoint}
    (h : b.wider? = some w) :
    (layers.ruled element).flatMap (Entry.rulesAt b) =
      (layers.ruled element).flatMap (Entry.rulesAt w) ++ rulesOf element (layers.changedAt b) := by
  rw [rulesAt_ruled, rulesAt_ruled]
  cases b <;> cases h <;> simp [Breakpoint.narrow, Breakpoint.covers, Breakpoint.maxWidth?]

theorem inForce?_wider (layers : Layers) (element : Text) {b w : Breakpoint} (h : b.wider? = some w)
    (slot : Slot) (property : Text) :
    inForce? (layers.ruled element) b slot property =
      (layers.change? b w slot property).or (inForce? (layers.ruled element) w slot property) := by
  rw [inForce?, rulesAt_ruled_wider layers element h, declarationsOf_append, valueOf?_append,
    declarationsOf_rulesOf, valueOf?_changedAt layers h]
  rfl

theorem inForce?_desktop (layers : Layers) (element : Text) (slot : Slot) (property : Text) :
    inForce? (layers.ruled element) .desktop slot property =
      valueOf? (layers.layer .desktop slot) property := by
  have hrules : (layers.ruled element).flatMap (Entry.rulesAt .desktop) =
      rulesOf element (layers.layer .desktop) := by
    rw [rulesAt_ruled]
    simp [Breakpoint.narrow, Breakpoint.covers, Breakpoint.maxWidth?]
  rw [inForce?, hrules, declarationsOf_rulesOf]

theorem inForce?_ruled (layers : Layers) (element : Text) (b : Breakpoint) (slot : Slot)
    (property : Text) :
    inForce? (layers.ruled element) b slot property = (layers.valueAt slot property).resolve b := by
  induction b using Breakpoint.chain_induction with
  | wide => rw [inForce?_desktop, resolve_valueAt_desktop]
  | step h ih => rw [inForce?_wider layers element h, ih, change?_or layers h]

theorem computes_ruled (layers : Layers) (element : Text) : Computes (layers.ruled element) layers := by
  refine ⟨inForce?_ruled layers element, fun b rules hm r hr d hd w h => ?_⟩
  obtain ⟨_, _, he⟩ | ⟨c, _, _, he⟩ := mem_ruled hm
  · exact nomatch he
  · obtain ⟨rfl, rfl⟩ := Entry.media.inj he
    rw [eq_of_mem_rulesOf hr] at hd
    rw [inForce?_ruled]
    exact mem_changedAt h hd

theorem legible_of_mem_ruled {layers : Layers} (h : layers.Enclosed) {element : Text} :
    ∀ e ∈ layers.ruled element, e.Legible element := by
  have hrule : ∀ declared : Slot → List Declaration, (∀ slot, ∀ d ∈ declared slot, d.Enclosed) →
      ∀ r ∈ rulesOf element declared, r.element = element ∧ ∀ d ∈ r.declarations, d.Enclosed := by
    intro declared hd r hr
    rw [eq_of_mem_rulesOf hr]
    exact ⟨rfl, hd r.slot⟩
  intro e he
  obtain ⟨r, hr, rfl⟩ | ⟨b, hb, hne, rfl⟩ := mem_ruled he
  · exact hrule _ (h.layer .desktop) r hr
  · exact ⟨hb, hne, hrule _ (enclosed_changedAt h b)⟩

theorem compile_eq (layers : Layers) (element : Text) :
    layers.compile element = (layers.ruled element).map Entry.write ++ layers.custom.toList := by
  rw [compile, entries_eq, List.map_append, List.map_map]
  cases layers.custom <;> rfl

end Layers

end Folio.Style

namespace Folio.Render

/-- What is compiled for an element, the style text of its own aside, are entries that can be read back
    from their texts, and they give every property the value it is resolved to, at every breakpoint and
    in every state. -/
theorem computes_compile (kind : Component) (p : Props) (element : Text) :
    let layers := (Style.Layers.ofProps p).withDefaults (defaults kind p)
    ∃ entries : List Style.Entry,
      layers.compile element = entries.map Style.Entry.write ++ layers.custom.toList ∧
      (∀ e ∈ entries, Style.Entry.read? element e.write = some e) ∧ Style.Computes entries layers := by
  intro layers
  have henclosed : layers.Enclosed :=
    (Style.Layers.enclosed_ofProps p).withDefaults (enclosed_defaults kind p)
  have hread : ∀ e ∈ layers.ruled element, Style.Entry.read? element e.write = some e :=
    fun e he => Style.Entry.read?_write (Style.Layers.legible_of_mem_ruled henclosed e he)
  exact ⟨layers.ruled element, layers.compile_eq element, hread, layers.computes_ruled element⟩

end Folio.Render
