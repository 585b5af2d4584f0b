import Folio.Json.Basic

set_option autoImplicit false

/-!
# Documents

A document is a map from node ids to nodes, read leniently from what the editor stores: an entry that
is not an object is left out, and a field of the wrong type takes its default. Only `parse` insists on
a JSON object with a root.
-/
namespace Folio

structure Node where
  typeTag : Text
  props : Json.Fields
  /-- Ordinary children, in their order. -/
  children : List Text
  /-- Children in named slots, in the order of the names. -/
  slots : List (Text × Text)
  hidden : Bool
  parent : Option Text

namespace Node

def firstOf? (fields : Json.Fields) (keys : List Text) : Option Json :=
  keys.findSome? (Json.Fields.get? fields)

def typeTagOf (fields : Json.Fields) : Text :=
  match firstOf? fields ["type", "typeTag"] with
  | some (.string tag) => tag
  | some (.object resolved) => ((Json.Fields.get? resolved "resolvedName").bind Json.string?).getD []
  | _ => []

def childrenOf (fields : Json.Fields) : List Text :=
  let found := (["nodes", "children", "childIds"] : List Text).findSome? fun key =>
    (Json.Fields.get? fields key).bind Json.array?
  (found.getD []).filterMap Json.string?

def slotsOf (fields : Json.Fields) : List (Text × Text) :=
  let found := (["linkedNodes", "slots", "namedSlotChildIds"] : List Text).findSome? fun key =>
    (Json.Fields.get? fields key).bind Json.object?
  (found.getD []).filterMap fun (slot, id) => id.string?.map fun id => (slot, id)

def ofFields (fields : Json.Fields) : Node where
  typeTag := typeTagOf fields
  props := ((Json.Fields.get? fields "props").bind Json.object?).getD []
  children := childrenOf fields
  slots := slotsOf fields
  hidden := ((Json.Fields.get? fields "hidden").bind Json.bool?).getD false
  parent := (firstOf? fields ["parent", "parentId"]).bind Json.string?

def ofJson? (value : Json) : Option Node := value.object?.map ofFields

def allChildren (n : Node) : List Text := n.children ++ n.slots.map Prod.snd

end Node

/-- The nodes of a tree by their ids. -/
structure Document where
  nodes : List (Text × Node)

inductive DocumentError where
  | invalidJson
  | notAnObject
  | missingRoot
deriving DecidableEq, Repr

namespace DocumentError

def message : DocumentError → Text
  | invalidJson => "Invalid document JSON"
  | notAnObject => "Document must be a JSON object mapping node ids to nodes"
  | missingRoot => "Document has no 'ROOT' node"

end DocumentError

namespace Document

def rootId : Text := "ROOT"

def empty : Document := ⟨[]⟩

def get? (d : Document) (id : Text) : Option Node := d.nodes.lookup id

theorem mem_of_get? {d : Document} {id : Text} {n : Node} (h : d.get? id = some n) : (id, n) ∈ d.nodes :=
  mem_of_lookup h

def root? (d : Document) : Option Node := d.get? rootId

def ofFields (fields : Json.Fields) : Document :=
  ⟨fields.filterMap fun (id, value) => (Node.ofJson? value).map fun n => (id, n)⟩

def ofJson : Json → Document
  | .object fields => ofFields fields
  | _ => empty

def ofText [Json.Codec] (s : Text) : Document :=
  if Text.isBlankText s then empty
  else
    match Json.Codec.read? s with
    | some value => ofJson value
    | none => empty

/-- The document in stored content: an object, or a string that holds one. -/
def ofContent [Json.Codec] : Json → Document
  | .object fields => ofFields fields
  | .string s => ofText s
  | _ => empty

def parse [Json.Codec] (s : Text) : Except DocumentError Document :=
  match Json.Codec.read? s with
  | none => .error .invalidJson
  | some (.object fields) =>
    let d := ofFields fields
    if d.root?.isSome then .ok d else .error .missingRoot
  | some _ => .error .notAnObject

end Document

end Folio
