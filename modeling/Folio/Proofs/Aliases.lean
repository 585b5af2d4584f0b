import Folio.Document

set_option autoImplicit false

/-!
# Fields with several keys

A field of a node may be stored under any of several keys. The children and the slots come from the first
key with a value of their type. The type tag and the parent come from the first key there is: one whose
value is of no use hides the key behind it, and the field is left at its default.
-/
namespace Folio

namespace Json.Fields

variable {α : Type}

/-- What the first of some keys holds that has a value of use. Keys that are missing and values of no use
    are passed over. -/
def Holds (fields : Fields) (read? : Json → Option α) (keys : List Text) : Option α → Prop
  | some a => ∃ passed key rest, keys = passed ++ key :: rest ∧
      (∃ value ∈ fields.get? key, read? value = some a) ∧
      ∀ k ∈ passed, ∀ value ∈ fields.get? k, read? value = none
  | none => ∀ k ∈ keys, ∀ value ∈ fields.get? k, read? value = none

/-- A value of no use under one key, and one of use under the next. -/
def Hides (fields : Fields) (read? : Json → Option α) (key next : Text) (a : α) : Prop :=
  (∃ value ∈ fields.get? key, read? value = none) ∧ ∃ value ∈ fields.get? next, read? value = some a

variable {fields : Fields} {read? : Json → Option α}

theorem holds_iff {keys : List Text} {found : Option α} : Holds fields read? keys found ↔
    keys.findSome? (fun key => (fields.get? key).bind read?) = found := by
  have hpassed : ∀ ks : List Text, (∀ k ∈ ks, ∀ value ∈ fields.get? k, read? value = none) ↔
      ∀ k ∈ ks, (fields.get? k).bind read? = none :=
    fun ks => forall₂_congr fun k _ => Option.bind_eq_none_iff.symm
  cases found with
  | none => exact (hpassed keys).trans List.findSome?_eq_none_iff.symm
  | some a =>
    simp only [Holds, hpassed]
    rw [List.findSome?_eq_some_iff]
    simp only [Option.bind_eq_some_iff, Option.mem_def]

theorem firstOf?_pair (fields : Fields) (key next : Text) :
    Node.firstOf? fields [key, next] = (fields.get? key).or (fields.get? next) := by
  unfold Node.firstOf?
  rw [List.findSome?_cons, List.findSome?_cons]
  cases fields.get? key with
  | none => cases fields.get? next <;> rfl
  | some value => rfl

theorem bind_firstOf?_of_hides {key next : Text} {a : α} (h : Hides fields read? key next a) :
    (Node.firstOf? fields [key, next]).bind read? = none := by
  obtain ⟨⟨value, hvalue, hnone⟩, _⟩ := h
  rw [firstOf?_pair, Option.mem_def.1 hvalue]
  exact hnone

theorem holds_firstOf? {key next : Text} (h : ∀ a, ¬ Hides fields read? key next a) :
    Holds fields read? [key, next] ((Node.firstOf? fields [key, next]).bind read?) := by
  rw [holds_iff, firstOf?_pair, List.findSome?_cons, List.findSome?_singleton]
  cases hkey : fields.get? key with
  | none => rfl
  | some value =>
    rw [Option.some_or, Option.bind_some]
    cases hread : read? value with
    | some a => rfl
    | none =>
      -- the value is of no use, so there is none of use behind it either
      refine Option.eq_none_iff_forall_ne_some.2 fun a ha => h a ⟨⟨value, hkey, hread⟩, ?_⟩
      obtain ⟨other, hother, ha⟩ := Option.bind_eq_some_iff.1 ha
      exact ⟨other, hother, ha⟩

theorem holds_of_hides {key next : Text} {a : α} (h : Hides fields read? key next a) :
    Holds fields read? [key, next] (some a) := by
  obtain ⟨⟨value, hvalue, hnone⟩, hnext⟩ := h
  refine ⟨[key], next, [], rfl, hnext, List.forall_mem_singleton.2 fun other hother => ?_⟩
  obtain rfl := Option.some.inj ((Option.mem_def.1 hvalue).symm.trans hother)
  exact hnone

theorem Holds.unique {keys : List Text} {found other : Option α} (h : Holds fields read? keys found)
    (h' : Holds fields read? keys other) : found = other :=
  (holds_iff.1 h).symm.trans (holds_iff.1 h')

end Json.Fields

namespace Node

open Json.Fields

def tag? : Json → Option Text
  | .string tag => some tag
  | .object resolved => (Json.Fields.get? resolved "resolvedName").bind Json.string?
  | _ => none

/-- Each field of a node is what the first of its keys holds that has a value of its type, and the default
    only where none has. -/
structure ReadsFirst (n : Node) (fields : Json.Fields) : Prop where
  typeTag : ∃ found, Holds fields tag? ["type", "typeTag"] found ∧ n.typeTag = found.getD []
  props : ∃ found, Holds fields Json.object? ["props"] found ∧ n.props = found.getD []
  children : ∃ found, Holds fields Json.array? ["nodes", "children", "childIds"] found ∧
    n.children = (found.getD []).filterMap Json.string?
  slots : ∃ found, Holds fields Json.object? ["linkedNodes", "slots", "namedSlotChildIds"] found ∧
    n.slots = (found.getD []).filterMap fun (slot, id) => id.string?.map fun id => (slot, id)
  hidden : ∃ found, Holds fields Json.bool? ["hidden"] found ∧ n.hidden = found.getD false
  parent : Holds fields Json.string? ["parent", "parentId"] n.parent

theorem typeTagOf_eq (fields : Json.Fields) :
    typeTagOf fields = ((firstOf? fields ["type", "typeTag"]).bind tag?).getD [] := by
  unfold typeTagOf
  cases firstOf? fields ["type", "typeTag"] with
  | none => rfl
  | some value => cases value <;> rfl

theorem typeTagOf_of_hides {fields : Json.Fields} {tag : Text}
    (h : Hides fields tag? "type" "typeTag" tag) : typeTagOf fields = [] := by
  rw [typeTagOf_eq, bind_firstOf?_of_hides h]
  rfl

theorem typeTagOf_iff (fields : Json.Fields) :
    (∃ found, Holds fields tag? ["type", "typeTag"] found ∧ typeTagOf fields = found.getD []) ↔
      ∀ tag, Hides fields tag? "type" "typeTag" tag → tag = [] := by
  constructor
  · rintro ⟨found, hfound, htag⟩ tag hhides
    rw [hfound.unique (holds_of_hides hhides), typeTagOf_of_hides hhides] at htag
    exact htag.symm
  · intro h
    by_cases hhides : ∃ tag, Hides fields tag? "type" "typeTag" tag
    · obtain ⟨tag, hhides⟩ := hhides
      refine ⟨some tag, holds_of_hides hhides, ?_⟩
      rw [typeTagOf_of_hides hhides, h tag hhides]
      rfl
    · exact ⟨_, holds_firstOf? (not_exists.1 hhides), typeTagOf_eq fields⟩

theorem parent_of_hides {fields : Json.Fields} {id : Text}
    (h : Hides fields Json.string? "parent" "parentId" id) : (ofFields fields).parent = none :=
  bind_firstOf?_of_hides h

theorem parent_iff (fields : Json.Fields) :
    Holds fields Json.string? ["parent", "parentId"] (ofFields fields).parent ↔
      ∀ id, ¬ Hides fields Json.string? "parent" "parentId" id := by
  constructor
  · intro h id hhides
    have hsome := h.unique (holds_of_hides hhides)
    rw [parent_of_hides hhides] at hsome
    exact absurd hsome.symm (Option.some_ne_none id)
  · exact holds_firstOf?

/-- The fields of a node are read from the first key with a value of their type exactly when no unusable
    `type` stands before a tag and no unusable `parent` before an id; where one does, the node is left
    without a tag, or without a parent. -/
theorem readsFirst_iff (fields : Json.Fields) :
    (∃ n, ofJson? (.object fields) = some n ∧ (n.ReadsFirst fields ↔
      (∀ tag, Hides fields tag? "type" "typeTag" tag → tag = []) ∧
        ∀ id, ¬ Hides fields Json.string? "parent" "parentId" id) ∧
      (∀ tag, Hides fields tag? "type" "typeTag" tag → n.typeTag = []) ∧
      ∀ id, Hides fields Json.string? "parent" "parentId" id → n.parent = none) := by
  refine ⟨ofFields fields, rfl, ⟨fun h => ?_, fun ⟨htag, hparent⟩ => ?_⟩,
    fun _ => typeTagOf_of_hides, fun _ => parent_of_hides⟩
  · exact ⟨(typeTagOf_iff fields).1 h.typeTag, (parent_iff fields).1 h.parent⟩
  · have hone : ∀ {α : Type} (read? : Json → Option α) (key : Text),
        Holds fields read? [key] ((fields.get? key).bind read?) := by
      intro α read? key
      rw [holds_iff, List.findSome?_cons]
      cases (fields.get? key).bind read? <;> rfl
    exact {
      typeTag := (typeTagOf_iff fields).2 htag
      props := ⟨_, hone Json.object? "props", rfl⟩
      children := ⟨_, holds_iff.2 rfl, rfl⟩
      slots := ⟨_, holds_iff.2 rfl, rfl⟩
      hidden := ⟨_, hone Json.bool? "hidden", rfl⟩
      parent := (parent_iff fields).2 hparent }

theorem not_readsFirst_null :
    ¬ (ofFields [("type", .null), ("typeTag", .string "Heading")]).ReadsFirst
      [("type", .null), ("typeTag", .string "Heading")] := by
  intro h
  have hhides : Hides [("type", .null), ("typeTag", .string "Heading")] tag? "type" "typeTag" "Heading" :=
    ⟨⟨.null, rfl, rfl⟩, .string "Heading", rfl, rfl⟩
  exact absurd ((typeTagOf_iff _).1 h.typeTag "Heading" hhides) (by decide)

end Node

end Folio
