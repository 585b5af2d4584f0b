import Folio.Document
import Folio.Proofs.Codec
import Mathlib.Data.List.Lex
import Mathlib.Data.Char

set_option autoImplicit false

/-!
# Keys in order

An object that is read has its keys in strict order, whatever order they were written in, and so have the
objects in it. The slots of a node are fields of such an object, so they stand in the order of their names.
-/
namespace Folio

theorem Text.before_iff_lt (s t : Text) : Text.before s t = true ↔ s < t := by
  induction s generalizing t with
  | nil => cases t <;> simp [before]
  | cons a s ih =>
    cases t with
    | nil => simp [before]
    | cons b t => simp [before, List.cons_lt_cons_iff, ih]

namespace Json
namespace Fields

def keys (fields : Fields) : List Text := fields.map Prod.fst

def Ordered (fields : Fields) : Prop := (keys fields).Pairwise (· < ·)

theorem mem_insert {key : Text} {value : Json} {fields : Fields} {f : Text × Json}
    (h : f ∈ Fields.insert key value fields) : f = (key, value) ∨ f ∈ fields := by
  induction fields with
  | nil => exact .inl (List.mem_singleton.1 h)
  | cons g fields ih =>
    simp only [Fields.insert] at h
    split at h
    · exact (List.mem_cons.1 h).imp_right (List.mem_cons_of_mem g)
    · split at h
      · exact List.mem_cons.1 h
      · rcases List.mem_cons.1 h with rfl | h
        · exact .inr List.mem_cons_self
        · exact (ih h).imp_right (List.mem_cons_of_mem g)

theorem Ordered.insert {fields : Fields} (h : Ordered fields) (key : Text) (value : Json) :
    Ordered (Fields.insert key value fields) := by
  induction fields with
  | nil => exact List.pairwise_singleton _ _
  | cons f fields ih =>
    obtain ⟨k, v⟩ := f
    obtain ⟨hfirst, hrest⟩ := List.pairwise_cons.1 h
    simp only [Fields.insert]
    split
    · rename_i e
      subst e
      exact h
    · rename_i hne
      split
      · rename_i hbefore
        have hlt := (Text.before_iff_lt key k).1 hbefore
        refine List.pairwise_cons.2 ⟨fun l hl => ?_, h⟩
        rcases List.mem_cons.1 hl with rfl | hl
        · exact hlt
        · exact hlt.trans (hfirst l hl)
      · rename_i hbefore
        have hlt : k < key := by
          refine (lt_trichotomy k key).resolve_right (not_or.2 ⟨hne, ?_⟩)
          rwa [← Text.before_iff_lt]
        refine List.pairwise_cons.2 ⟨fun l hl => ?_, ih hrest⟩
        obtain ⟨g, hg, rfl⟩ := List.mem_map.1 hl
        rcases mem_insert hg with rfl | hg
        · exact hlt
        · exact hfirst g.1 (List.mem_map_of_mem hg)

theorem ordered_sorted (fields : Fields) : Ordered (sorted fields) :=
  List.foldlRecOn (motive := Ordered) fields _ List.Pairwise.nil fun _ h f _ => h.insert f.1 f.2

theorem mem_sorted {fields : Fields} {f : Text × Json} (h : f ∈ sorted fields) : f ∈ fields := by
  have hall : ∀ g ∈ sorted fields, g ∈ fields := by
    refine List.foldlRecOn (motive := fun l => ∀ g ∈ l, g ∈ fields) fields _ (by simp) ?_
    intro l hl f hf g hg
    exact (mem_insert hg).elim (fun e => e ▸ hf) (hl g)
  exact hall f h

theorem mem_canonicalFields {fields : Fields} {f : Text × Json} (h : f ∈ canonicalFields fields) :
    ∃ v, f.2 = canonical v := by
  induction fields with
  | nil => simp [canonicalFields] at h
  | cons g fields ih =>
    obtain ⟨k, v⟩ := g
    rw [canonicalFields] at h
    rcases List.mem_cons.1 h with rfl | h
    · exact ⟨v, rfl⟩
    · exact ih h

theorem insert_of_forall_lt {fields : Fields} {key : Text} (h : ∀ k ∈ keys fields, k < key)
    (value : Json) : Fields.insert key value fields = fields ++ [(key, value)] := by
  induction fields with
  | nil => rfl
  | cons f fields ih =>
    obtain ⟨hfirst, hrest⟩ := List.forall_mem_cons.1 h
    have hbefore : ¬ Text.before key f.1 = true := by
      rw [Text.before_iff_lt]
      exact lt_asymm hfirst
    rw [Fields.insert, if_neg hfirst.ne, if_neg hbefore, ih hrest, List.cons_append]

theorem Ordered.of_append_cons {init : Fields} {f : Text × Json} {rest : Fields}
    (h : Ordered (init ++ f :: rest)) : ∀ k ∈ keys init, k < f.1 := by
  rw [Ordered, keys, List.map_append, List.pairwise_append] at h
  exact fun k hk => h.2.2 k hk f.1 List.mem_cons_self

theorem sorted_of_ordered {fields : Fields} (h : Ordered fields) : sorted fields = fields := by
  have hfold : ∀ rest init : Fields, Ordered (init ++ rest) →
      rest.foldl (fun l f => Fields.insert f.1 f.2 l) init = init ++ rest := by
    intro rest
    induction rest with
    | nil => exact fun init _ => (List.append_nil init).symm
    | cons f rest ih =>
      intro init h
      have hsplit : init ++ f :: rest = init ++ [f] ++ rest := by simp
      have hinsert := insert_of_forall_lt h.of_append_cons f.2
      rw [List.foldl_cons, hsplit, ← ih _ (hsplit ▸ h), ← hinsert]
  exact hfold fields [] h

theorem canonicalFields_eq (fields : Fields) :
    canonicalFields fields = fields.map fun f => (f.1, canonical f.2) := by
  induction fields with
  | nil => rfl
  | cons f fields ih => rw [canonicalFields, ih, List.map_cons]

theorem canonicalFields_of_forall {fields : Fields} (h : ∀ f ∈ fields, canonical f.2 = f.2) :
    canonicalFields fields = fields := by
  have hid : fields.map (fun f => (f.1, canonical f.2)) = fields.map id :=
    List.map_congr_left fun f hf => Prod.ext rfl (h f hf)
  rw [canonicalFields_eq, hid, List.map_id]

end Fields

theorem object?_canonical {v : Json} {fields : Fields} (h : v.canonical.object? = some fields) :
    Fields.Ordered fields ∧ ∀ f ∈ fields, ∃ w, f.2 = canonical w := by
  cases v with
  | object l =>
    rw [canonical] at h
    obtain rfl := Option.some.inj h
    exact ⟨Fields.ordered_sorted _, fun f hf => Fields.mem_canonicalFields (Fields.mem_sorted hf)⟩
  | _ => simp [canonical, object?] at h

theorem canonicalItems_eq (items : List Json) : canonicalItems items = items.map canonical := by
  induction items with
  | nil => rfl
  | cons item items ih => rw [canonicalItems, ih, List.map_cons]

theorem isPlain_canonical {depth : Nat} {v : Json} (h : isPlain depth v = true) : isPlain depth v.canonical = true := by
  induction depth generalizing v with
  | zero => cases v <;> exact h
  | succ depth ih =>
    cases v with
    | array items =>
      rw [canonical, canonicalItems_eq]
      refine List.all_eq_true.2 fun w hw => ?_
      obtain ⟨item, hitem, rfl⟩ := List.mem_map.1 hw
      exact ih (List.all_eq_true.1 h item hitem)
    | object fields =>
      rw [canonical, Fields.canonicalFields_eq]
      refine List.all_eq_true.2 fun g hg => ?_
      obtain ⟨f, hf, rfl⟩ := List.mem_map.1 (Fields.mem_sorted hg)
      exact ih (List.all_eq_true.1 h f hf)
    | _ => exact h

mutual

/-- What has been put in order stays as it is. -/
theorem canonical_canonical : ∀ v : Json, canonical (canonical v) = canonical v
  | .null => rfl
  | .bool _ => rfl
  | .number _ => rfl
  | .string _ => rfl
  | .array items => by rw [canonical, canonical, canonicalItems_canonicalItems items]
  | .object fields => by
    have hvalues := canonical_of_mem_canonicalFields fields
    rw [canonical, canonical, Fields.canonicalFields_of_forall fun f hf => hvalues f (Fields.mem_sorted hf),
      Fields.sorted_of_ordered (Fields.ordered_sorted _)]

theorem canonicalItems_canonicalItems :
    ∀ items : List Json, canonicalItems (canonicalItems items) = canonicalItems items
  | [] => rfl
  | item :: items => by
    rw [canonicalItems, canonicalItems, canonical_canonical item, canonicalItems_canonicalItems items]

theorem canonical_of_mem_canonicalFields :
    ∀ fields : Fields, ∀ f ∈ canonicalFields fields, canonical f.2 = f.2
  | [] => fun _ hf => absurd hf List.not_mem_nil
  | (key, value) :: fields => by
    rw [canonicalFields]
    exact List.forall_mem_cons.2
      ⟨canonical_canonical value, canonical_of_mem_canonicalFields fields⟩

end

theorem Has.of_canonical {x : Double} {v : Json} (h : Has x v.canonical) : Has x v := by
  generalize hw : v.canonical = w at h
  induction h generalizing v with
  | number =>
    cases v with
    | number n =>
      obtain rfl := Json.number.inj hw
      exact .number
    | _ => cases hw
  | item hv _ ih =>
    cases v with
    | array items =>
      rw [canonical, canonicalItems_eq] at hw
      obtain rfl := Json.array.inj hw
      obtain ⟨u, hu, hcanonical⟩ := List.mem_map.1 hv
      exact .item hu (ih hcanonical)
    | _ => cases hw
  | field hf _ ih =>
    cases v with
    | object fields =>
      rw [canonical, Fields.canonicalFields_eq] at hw
      obtain rfl := Json.object.inj hw
      obtain ⟨g, hg, hcanonical⟩ := List.mem_map.1 (Fields.mem_sorted hf)
      exact .field hg (ih (congrArg Prod.snd hcanonical))
    | _ => cases hw

end Json

namespace Node

/-- The slots stand in the order of their names. -/
def SlotsByName (n : Node) : Prop := (n.slots.map Prod.fst).Pairwise (· < ·)

theorem slotsByName_ofFields {v : Json} {fields : Json.Fields} (h : v.canonical.object? = some fields) :
    (ofFields fields).SlotsByName := by
  obtain ⟨_, hvalues⟩ := Json.object?_canonical h
  rw [SlotsByName, ofFields, slotsOf]
  cases hfound : (["linkedNodes", "slots", "namedSlotChildIds"] : List Text).findSome? fun key =>
      (Json.Fields.get? fields key).bind Json.object? with
  | none => exact List.Pairwise.nil
  | some slots =>
    obtain ⟨key, _, hkey⟩ := List.exists_of_findSome?_eq_some hfound
    obtain ⟨value, hvalue, hobject⟩ := Option.bind_eq_some_iff.1 hkey
    obtain ⟨w, rfl⟩ : ∃ w, value = Json.canonical w :=
      hvalues (key, value) (Json.Fields.mem_of_get? hvalue)
    have hordered := List.pairwise_map.1 (Json.object?_canonical hobject).1
    rw [List.pairwise_map, List.pairwise_filterMap]
    -- a slot whose value is not an id is left out, the others keep their names
    refine hordered.imp fun {f g} hlt s hs t ht => ?_
    obtain ⟨_, _, rfl⟩ := Option.map_eq_some_iff.1 hs
    obtain ⟨_, _, rfl⟩ := Option.map_eq_some_iff.1 ht
    exact hlt

end Node

namespace Document

variable [Json.Codec]

def IsRead (d : Document) : Prop :=
  (∃ content : Json, d = ofContent content.canonical) ∨ ∃ s, parse s = .ok d

omit [Json.Codec] in
theorem slotsByName_ofFields {v : Json} {fields : Json.Fields} (h : v.canonical.object? = some fields) :
    ∀ e ∈ (ofFields fields).nodes, e.2.SlotsByName := by
  intro e he
  obtain ⟨⟨id, value⟩, hf, hnode⟩ := List.mem_filterMap.1 he
  obtain ⟨n, hn, rfl⟩ := Option.map_eq_some_iff.1 hnode
  obtain ⟨l, hobject, rfl⟩ := Option.map_eq_some_iff.1 hn
  obtain ⟨w, rfl⟩ : ∃ w, value = Json.canonical w := (Json.object?_canonical h).2 (id, value) hf
  exact Node.slotsByName_ofFields hobject

omit [Json.Codec] in
theorem slotsByName_ofJson (v : Json) : ∀ e ∈ (ofJson v.canonical).nodes, e.2.SlotsByName := by
  cases hv : v.canonical with
  | object fields => exact slotsByName_ofFields (congrArg Json.object? hv)
  | _ => exact fun e he => absurd he List.not_mem_nil

variable [Json.LawfulCodec]

theorem slotsByName_ofText (s : Text) : ∀ e ∈ (ofText s).nodes, e.2.SlotsByName := by
  rw [ofText]
  split
  · exact fun e he => absurd he List.not_mem_nil
  · cases hread : Json.Codec.read? s with
    | none => exact fun e he => absurd he List.not_mem_nil
    | some value =>
      rw [← Json.LawfulCodec.canonical_of_read? hread]
      exact slotsByName_ofJson value

theorem IsRead.slotsByName {d : Document} (h : d.IsRead) : ∀ e ∈ d.nodes, e.2.SlotsByName := by
  rcases h with ⟨content, rfl⟩ | ⟨s, hs⟩
  · cases hcontent : content.canonical with
    | object fields => exact slotsByName_ofFields (congrArg Json.object? hcontent)
    | string s => exact slotsByName_ofText s
    | _ => exact fun e he => absurd he List.not_mem_nil
  · rw [parse] at hs
    split at hs
    · cases hs
    · rename_i fields hread
      have hcanonical := Json.LawfulCodec.canonical_of_read? hread
      dsimp only at hs
      split at hs
      · obtain rfl := Except.ok.inj hs
        exact slotsByName_ofFields (congrArg Json.object? hcanonical)
      · cases hs
    · cases hs

end Document

end Folio
