import Folio.Proofs.Bags
import Folio.Proofs.Coupling

set_option autoImplicit false

/-!
# Shorthands and longhands

A shorthand resets its longhands, so in a rule it has to stand before them, as it does in the property
table and hence in every bag. Where several bags make up one rule the properties stand as the bags name
them first: a shorthand comes after a longhand of its own exactly when the first bag that names either
of them names the longhand alone.
-/
namespace Folio.Style

open Declarations

def shorthands : List (Text × List Text) :=
  [("padding", ["padding-top", "padding-right", "padding-bottom", "padding-left"]),
   ("margin", ["margin-top", "margin-right", "margin-bottom", "margin-left"]),
   ("border", ["border-width", "border-style", "border-color"]),
   ("gap", ["row-gap", "column-gap"])]

def Resets (shorthand longhand : Text) : Prop :=
  ∃ e ∈ shorthands, e.1 = shorthand ∧ longhand ∈ e.2

instance (shorthand longhand : Text) : Decidable (Resets shorthand longhand) :=
  inferInstanceAs (Decidable (∃ e ∈ shorthands, e.1 = shorthand ∧ longhand ∈ e.2))

/-- No shorthand comes after one of its longhands. -/
def Ordered (ds : List Declaration) : Prop :=
  ds.Pairwise fun d e => ¬ Resets e.property d.property

instance (ds : List Declaration) : Decidable (Ordered ds) :=
  inferInstanceAs (Decidable (List.Pairwise _ ds))

/-- Of two properties the first is met before the second, which comes later. -/
def MetFirst (a b : Text) (l : List Text) : Prop :=
  l.find? (fun c => c = a || c = b) = some a ∧ b ∈ l

theorem resets_ne {s l : Text} (h : Resets s l) : s ≠ l := by
  have hne : ∀ e ∈ shorthands, e.1 ∉ e.2 := by decide
  obtain ⟨e, he, rfl, hl⟩ := h
  exact fun heq => hne e he (heq ▸ hl)

theorem metFirst_cons {a b c : Text} (hab : a ≠ b) (l : List Text) :
    MetFirst a b (c :: l) ↔ (c = a ∧ b ∈ l) ∨ (c ≠ a ∧ c ≠ b ∧ MetFirst a b l) := by
  unfold MetFirst
  rw [List.find?_cons]
  by_cases ha : c = a
  · simp [ha, hab.symm]
  · by_cases hb : c = b
    · simp [hb, hab.symm]
    · simp [ha, hb, Ne.symm hb]

theorem pairwise_iff_metFirst {properties : List Text} (h : properties.Nodup) :
    properties.Pairwise (fun a b => ¬ Resets b a) ↔
      ∀ s l, Resets s l → ¬ MetFirst l s properties := by
  induction properties with
  | nil => exact ⟨fun _ _ _ _ hm => List.not_mem_nil hm.2, fun _ => List.Pairwise.nil⟩
  | cons a rest ih =>
    obtain ⟨ha, hrest⟩ := List.nodup_cons.1 h
    have hcons : ∀ s l, Resets s l →
        (MetFirst l s (a :: rest) ↔ (a = l ∧ s ∈ rest) ∨ MetFirst l s rest) := by
      intro s l hr
      refine (metFirst_cons (resets_ne hr).symm rest).trans (or_congr_right ?_)
      constructor
      · exact fun hm => hm.2.2
      · intro hm
        refine ⟨?_, ?_, hm⟩
        · rintro rfl
          exact ha (List.mem_of_find?_eq_some hm.1)
        · rintro rfl
          exact ha hm.2
    rw [List.pairwise_cons]
    constructor
    · rintro ⟨hfirst, htail⟩ s l hr hm
      rcases (hcons s l hr).1 hm with ⟨rfl, hs⟩ | hm
      · exact hfirst s hs hr
      · exact (ih hrest).1 htail s l hr hm
    · intro hall
      refine ⟨fun b hb hr => ?_, (ih hrest).2 fun s l hr hm => ?_⟩
      · exact hall b a hr ((hcons b a hr).2 (.inl ⟨rfl, hb⟩))
      · exact hall s l hr ((hcons s l hr).2 (.inr hm))

theorem ordered_iff_pairwise (ds : List Declaration) :
    Ordered ds ↔ (names ds).Pairwise fun a b => ¬ Resets b a := by
  rw [names, List.pairwise_map]
  rfl

theorem ordered_iff_metFirst {ds : List Declaration} (h : (names ds).Nodup) :
    Ordered ds ↔ ∀ s l, Resets s l → ¬ MetFirst l s (names ds) :=
  (ordered_iff_pairwise ds).trans (pairwise_iff_metFirst h)

theorem metFirst_distinct (a b : Text) (l : List Text) :
    MetFirst a b (Layers.distinct l) ↔ MetFirst a b l := by
  rw [MetFirst, find?_distinct, Layers.mem_distinct]
  rfl

theorem metFirst_filter (p : Text → Bool) (a b : Text) (l : List Text) :
    MetFirst a b (l.filter p) ↔ p a = true ∧ p b = true ∧ MetFirst a b l := by
  have hfind : p a = true → p b = true →
      (l.filter p).find? (fun c => c = a || c = b) = l.find? fun c => c = a || c = b := by
    intro ha hb
    rw [List.find?_filter]
    refine congrArg (fun q => l.find? q) (funext fun c => ?_)
    by_cases hca : c = a
    · simp [hca, ha]
    · by_cases hcb : c = b <;> simp [hca, hcb, hb]
  constructor
  · rintro ⟨hmet, hb⟩
    have ha := (List.mem_filter.1 (List.mem_of_find?_eq_some hmet)).2
    obtain ⟨hb, hpb⟩ := List.mem_filter.1 hb
    exact ⟨ha, hpb, (hfind ha hpb).symm.trans hmet, hb⟩
  · rintro ⟨ha, hpb, hmet, hb⟩
    exact ⟨(hfind ha hpb).trans hmet, List.mem_filter.2 ⟨hb, hpb⟩⟩

theorem ordered_declarations (bag : Json) : Ordered (declarations bag) := by
  have htable : ∀ e ∈ shorthands, ∀ l ∈ e.2,
      propertyNames.find? (fun c => c = l || c = e.1) = some e.1 := by decide +kernel
  have hpairwise : propertyNames.Pairwise fun a b => ¬ Resets b a := by
    refine (pairwise_iff_metFirst nodup_propertyNames).2 fun s l hr hm => ?_
    obtain ⟨e, he, rfl, hl⟩ := hr
    exact resets_ne ⟨e, he, rfl, hl⟩ (Option.some.inj ((htable e he l hl).symm.trans hm.1))
  exact (ordered_iff_pairwise _).2 (hpairwise.sublist (names_declarations bag))

theorem not_metFirst_declarations {s l : Text} (h : Resets s l) (bag : Json) :
    ¬ MetFirst l s (names (declarations bag)) :=
  (ordered_iff_metFirst (nodup_declarations bag)).1 (ordered_declarations bag) s l h

theorem ordered_flatDeclarations (props : Json.Fields) : Ordered (flatDeclarations props) := by
  have hflat : ∀ e ∈ shorthands, e.1 ∈ flatProperties.map (fun p => p.2.1) →
      ∀ l ∈ e.2, l ∉ flatProperties.map (fun p => p.2.1) := by decide +kernel
  have hname : ∀ d ∈ flatDeclarations props, d.property ∈ flatProperties.map fun p => p.2.1 := by
    intro d hd
    obtain ⟨p, hp, h⟩ := List.mem_filterMap.1 (Declarations.firstOfEach_subset _ d hd)
    obtain ⟨value, _, rfl⟩ := Option.map_eq_some_iff.1 h
    exact List.mem_map_of_mem hp
  refine List.pairwise_of_forall_mem_list fun d hd e he hr => ?_
  obtain ⟨entry, hentry, hs, hl⟩ := hr
  exact hflat entry hentry (hs ▸ hname e he) _ hl (hname d hd)

/-- The first bag that names a shorthand or its longhand names the longhand alone, and a later one names
    the shorthand. -/
def Late (shorthand longhand : Text) (bags : List (List Declaration)) : Prop :=
  (∃ bag, bags.find? (fun bag => longhand ∈ names bag ∨ shorthand ∈ names bag) = some bag ∧
    shorthand ∉ names bag) ∧ ∃ bag ∈ bags, shorthand ∈ names bag

theorem metFirst_flatMap {s l : Text} (hne : l ≠ s) {bags : List (List Declaration)}
    (hbags : ∀ bag ∈ bags, ¬ MetFirst l s (names bag)) :
    MetFirst l s (bags.flatMap names) ↔ Late s l bags := by
  have hlater : ∀ bags : List (List Declaration),
      s ∈ bags.flatMap names ↔ ∃ bag ∈ bags, s ∈ names bag := fun _ => List.mem_flatMap
  induction bags with
  | nil => exact iff_of_false (fun h => List.not_mem_nil h.2) fun h => by simpa using h.2
  | cons bag bags ih =>
    obtain ⟨hbag, hbags⟩ := List.forall_mem_cons.1 hbags
    cases hfind : (names bag).find? (fun c => c = l || c = s) with
    | none =>
      -- the bag names neither
      have hneither : ∀ c ∈ names bag, c ≠ l ∧ c ≠ s := by simpa using hfind
      have hl : l ∉ names bag := fun hm => (hneither l hm).1 rfl
      have hs : s ∉ names bag := fun hm => (hneither s hm).2 rfl
      have hmet : MetFirst l s ((bag :: bags).flatMap names) ↔ MetFirst l s (bags.flatMap names) := by
        rw [MetFirst, List.flatMap_cons, List.find?_append, hfind, Option.none_or, List.mem_append,
          or_iff_right hs]
        rfl
      have hlate : Late s l (bag :: bags) ↔ Late s l bags := by
        rw [Late, List.find?_cons_of_neg (by simp [hl, hs]), List.exists_mem_cons_iff, or_iff_right hs]
        rfl
      exact hmet.trans ((ih hbags).trans hlate.symm)
    | some c =>
      rw [MetFirst, hlater, List.flatMap_cons, List.find?_append, hfind, Option.some_or, Late]
      refine and_congr_left fun _ => ?_
      have hc := List.mem_of_find?_eq_some hfind
      have hcase : c = l ∨ c = s := by simpa using List.find?_some hfind
      have hfound : (bag :: bags).find? (fun bag => l ∈ names bag ∨ s ∈ names bag) = some bag := by
        refine List.find?_cons_of_pos ?_
        rcases hcase with rfl | rfl <;> simp [hc]
      rw [hfound]
      rcases hcase with rfl | rfl
      · -- the longhand stands first, so the shorthand is not in the bag
        have hs : s ∉ names bag := fun hm => hbag ⟨hfind, hm⟩
        exact iff_of_true rfl ⟨bag, rfl, hs⟩
      · refine iff_of_false (fun heq => hne (Option.some.inj heq).symm) ?_
        rintro ⟨found, hsome, hnot⟩
        exact hnot (Option.some.inj hsome ▸ hc)

namespace Layers

theorem rules_entries (layers : Layers) (element : Text) :
    (layers.entries element).flatMap Entry.rules =
      rulesOf element (layers.layer .desktop) ++
        Breakpoint.narrow.flatMap fun b => rulesOf element (layers.changedAt b) := by
  have hmedia : ∀ b, (layers.mediaOf element b).toList.flatMap Entry.rules =
      rulesOf element (layers.changedAt b) := by
    intro b
    unfold mediaOf
    cases hr : rulesOf element (layers.changedAt b) with
    | nil => rfl
    | cons r rules => simp [Entry.rules]
  have hcustom : (layers.custom.toList.map Entry.custom).flatMap Entry.rules = [] := by
    cases layers.custom <;> rfl
  rw [entries_eq, List.flatMap_append, hcustom, List.append_nil, ruled, List.flatMap_append,
    List.flatMap_map, List.filterMap_eq_flatMap_toList, List.flatMap_assoc]
  simp only [Entry.rules, List.flatMap_singleton', hmedia]

theorem forall_rules_iff (layers : Layers) (element : Text) {P : List Declaration → Prop} (hnil : P []) :
    (∀ r ∈ (layers.entries element).flatMap Entry.rules, P r.declarations) ↔
      ∀ slot, P (layers.layer .desktop slot) ∧ ∀ b ∈ Breakpoint.narrow, P (layers.changedAt b slot) := by
  have hrules : ∀ declared : Slot → List Declaration,
      (∀ r ∈ rulesOf element declared, P r.declarations) ↔ ∀ slot, P (declared slot) := by
    intro declared
    constructor
    · intro h slot
      by_cases hne : declared slot = []
      · exact hne ▸ hnil
      · exact h _ (mem_rulesOf.2 ⟨slot, hne, rfl⟩)
    · intro h r hr
      obtain ⟨slot, _, rfl⟩ := mem_rulesOf.1 hr
      exact h slot
  rw [rules_entries, List.forall_mem_append, hrules, List.forall_mem_flatMap]
  simp only [hrules]
  exact ⟨fun h slot => ⟨h.1 slot, fun b hb => h.2 b hb slot⟩,
    fun h => ⟨fun slot => (h slot).1, fun b hb slot => (h slot).2 b hb⟩⟩

theorem ordered_desktop_iff (props : Json.Fields) (slot : Slot) :
    Ordered ((ofProps props).layer .desktop slot) ↔
      ∀ s l, Resets s l → ¬ Late s l (desktopBags props slot) := by
  have hbags : ∀ s l, Resets s l → ∀ bag ∈ desktopBags props slot, ¬ MetFirst l s (names bag) := by
    intro s l hr bag hbag
    obtain ⟨source, rfl⟩ : ∃ source, bag = declarations source := by
      rcases List.mem_cons.1 hbag with rfl | hbag
      · exact ofBags_ownLayer props slot
      · obtain ⟨e, _, rfl⟩ := List.mem_map.1 hbag
        exact ofBags_layerOf e.2 slot
    exact not_metFirst_declarations hr source
  obtain he | ⟨hflat, rfl, he⟩ := desktop_cases props slot
  · have hnodup : (names (collected props .desktop slot)).Nodup := by
      rw [names_collected]
      exact nodup_distinct _
    rw [he, ordered_iff_metFirst hnodup]
    refine forall_congr' fun s => forall_congr' fun l => forall_congr' fun hr => not_congr ?_
    rw [names_collected, metFirst_distinct,
      metFirst_flatMap (resets_ne hr).symm (hbags s l hr)]
  · -- flat keys style the element only where its bags declare nothing
    rw [he]
    refine iff_of_true (ordered_flatDeclarations props) fun s l _ hlate => ?_
    obtain ⟨_, bag, hbag, hs⟩ := hlate
    rw [desktopBags_flat hflat bag hbag] at hs
    exact List.not_mem_nil hs

theorem ordered_changedAt_iff {layers : Layers} {b w : Breakpoint} (h : b.wider? = some w) {slot : Slot}
    (hbags : ∀ c, c ≠ .desktop → OfBags (layers.layer c)) :
    Ordered (layers.changedAt b slot) ↔ ∀ s l, Resets s l → Late s l (layers.narrowBags slot) →
      layers.change? b w slot s = none ∨ layers.change? b w slot l = none := by
  have hordered : ∀ s l, Resets s l → ∀ bag ∈ layers.narrowBags slot, ¬ MetFirst l s (names bag) := by
    intro s l hr bag hbag
    obtain ⟨c, hc, rfl⟩ := List.mem_map.1 hbag
    have hne : c ≠ .desktop := by
      rintro rfl
      exact absurd hc (by decide)
    obtain ⟨source, hsource⟩ := hbags c hne slot
    rw [hsource]
    exact not_metFirst_declarations hr source
  have hnodup : (names (layers.changedAt b slot)).Nodup := by
    rw [names_changedAt layers h]
    exact (nodup_distinct _).filter _
  rw [ordered_iff_metFirst hnodup]
  refine forall_congr' fun s => forall_congr' fun l => forall_congr' fun hr => ?_
  rw [names_changedAt layers h, metFirst_filter, narrowProperties_eq, metFirst_distinct,
    metFirst_flatMap (resets_ne hr).symm (hordered s l hr), Option.isSome_iff_ne_none,
    Option.isSome_iff_ne_none]
  constructor
  · intro hnot hlate
    by_contra hboth
    obtain ⟨hs, hl⟩ := not_or.1 hboth
    exact hnot ⟨hl, hs, hlate⟩
  · rintro hchange ⟨hl, hs, hlate⟩
    exact (hchange hlate).elim hs hl

end Layers

/-- In the rules of a node no shorthand comes after one of its longhands, unless the bags that are laid
    over one another on the desktop name it too late, or those of the narrow breakpoints do and both
    change at once. -/
theorem ordered_rules_iff (props : Json.Fields) (element : Text) :
    (∀ r ∈ ((Layers.ofProps props).entries element).flatMap Entry.rules, Ordered r.declarations) ↔
      ∀ slot s l, Resets s l →
        ¬ Late s l (Layers.desktopBags props slot) ∧
          (Late s l ((Layers.ofProps props).narrowBags slot) → ∀ b w, b.wider? = some w →
            (Layers.ofProps props).change? b w slot s = none ∨
              (Layers.ofProps props).change? b w slot l = none) := by
  have hnarrow : ∀ slot, (∀ b ∈ Breakpoint.narrow, Ordered ((Layers.ofProps props).changedAt b slot)) ↔
      ∀ s l, Resets s l → Late s l ((Layers.ofProps props).narrowBags slot) → ∀ b w,
        b.wider? = some w → (Layers.ofProps props).change? b w slot s = none ∨
          (Layers.ofProps props).change? b w slot l = none := by
    intro slot
    constructor
    · intro h s l hr hlate b w hw
      exact (Layers.ordered_changedAt_iff hw fun _ => Layers.ofBags_narrow props).1
        (h b (Breakpoint.mem_narrow hw)) s l hr hlate
    · intro h b hb
      obtain ⟨w, hw⟩ := Breakpoint.exists_wider hb
      exact (Layers.ordered_changedAt_iff hw fun _ => Layers.ofBags_narrow props).2
        fun s l hr hlate => h s l hr hlate b w hw
  rw [Layers.forall_rules_iff _ element (P := Ordered) List.Pairwise.nil]
  refine forall_congr' fun slot => ?_
  rw [Layers.ordered_desktop_iff, hnarrow]
  exact ⟨fun h s l hr => ⟨h.1 s l hr, h.2 s l hr⟩,
    fun h => ⟨fun s l hr => (h s l hr).1, fun s l hr => (h s l hr).2⟩⟩

/-- A padding for the desktop resets the top padding of the node's own bag, and one for phones resets that
    for phones where tablets have a top padding as well. -/
theorem not_ordered_merged_padding :
    ¬ (∀ r ∈ ((Layers.ofProps
        [("advancedStyling", .object [("paddingTop", .string "1px")]),
         ("breakpointStyling", .object [("desktop", .object [("padding", .string "2px")])])]).entries
          "x").flatMap Entry.rules, Ordered r.declarations) ∧
    ¬ (∀ r ∈ ((Layers.ofProps
        [("breakpointStyling", .object
          [("tablet", .object [("paddingTop", .string "1px")]),
           ("mobile", .object [("padding", .string "2px"), ("paddingTop", .string "3px")])])]).entries
          "x").flatMap Entry.rules, Ordered r.declarations) := by
  constructor <;> decide +kernel

end Folio.Style
