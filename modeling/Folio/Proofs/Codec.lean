import Folio.Json.Basic

set_option autoImplicit false

/-!
# Lawful codecs

What is relied on of a reader and a writer of JSON text, whichever they are: a blank text spells nothing, the
keys of what is read stand in order and its numbers are doubles as they are kept, and a value without numbers
is read back as it was written.
-/
namespace Folio.Json

/-- A value without numbers, with at most `depth` arrays and objects around each other. -/
def isPlain : Nat → Json → Bool
  | _, .null => true
  | _, .bool _ => true
  | _, .string _ => true
  | _, .number _ => false
  | 0, .array _ => false
  | 0, .object _ => false
  | depth + 1, .array items => items.all (isPlain depth)
  | depth + 1, .object fields => fields.all fun f => isPlain depth f.2

inductive Has (x : Double) : Json → Prop where
  | number : Has x (.number (.real x))
  | item {items : List Json} {v : Json} (hv : v ∈ items) (hx : Has x v) : Has x (.array items)
  | field {fields : Fields} {f : Text × Json} (hf : f ∈ fields) (hx : Has x f.2) : Has x (.object fields)

class LawfulCodec [Codec] : Prop where
  read?_of_blank {s : Text} : Text.isBlankText s = true → Codec.read? s = none
  canonical_of_read? {s : Text} {v : Json} : Codec.read? s = some v → v.canonical = v
  proper_of_read? {s : Text} {v : Json} {x : Double} : Codec.read? s = some v → Has x v → x.Proper
  read?_write {v : Json} : isPlain maxDepth v = true → Codec.read? (Codec.write v) = some v.canonical

end Folio.Json
