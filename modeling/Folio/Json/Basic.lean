import Folio.Number.Shortest
import Folio.Text.Blank

set_option autoImplicit false

/-!
# JSON values

Numbers are integers or doubles, and the two stay apart: `1` and `1.0` are different numbers. The
fields of an object stand in the order of their keys, each key once, once the object has passed
through `canonical`; `insert` keeps that order.
-/
namespace Folio

inductive Number where
  | integer (n : Int)
  | real (x : Double)
deriving DecidableEq, Repr

namespace Number

def toDouble : Number → Double
  | integer n => Double.ofInt n
  | real x => x

def write : Number → Text
  | integer n => Text.ofInt n
  | real x => Notation.general.write x

end Number

theorem mem_of_lookup {β : Type} {entries : List (Text × β)} {key : Text} {value : β}
    (h : entries.lookup key = some value) : (key, value) ∈ entries := by
  obtain ⟨l₁, l₂, rfl, _⟩ := List.lookup_eq_some_iff.1 h
  exact List.mem_append_right l₁ List.mem_cons_self

inductive Json where
  | null
  | bool (b : Bool)
  | number (n : Number)
  | string (s : Text)
  | array (items : List Json)
  | object (fields : List (Text × Json))
deriving Repr, Inhabited

namespace Json

abbrev Fields := List (Text × Json)

def ofInt (n : Int) : Json := .number (.integer n)

def Fields.get? (fields : Fields) (key : Text) : Option Json := fields.lookup key

def Fields.insert (key : Text) (value : Json) : Fields → Fields
  | [] => [(key, value)]
  | (k, v) :: fields =>
    if k = key then (key, value) :: fields
    else if Text.before key k then (key, value) :: (k, v) :: fields
    else (k, v) :: Fields.insert key value fields

def Fields.sorted (fields : Fields) : Fields :=
  fields.foldl (fun sorted (key, value) => Fields.insert key value sorted) []

theorem Fields.mem_of_get? {fields : Fields} {key : Text} {value : Json}
    (h : fields.get? key = some value) : (key, value) ∈ fields := mem_of_lookup h

mutual

/-- Orders the fields of every object; of two fields with one key the later one stays. -/
def canonical : Json → Json
  | .array items => .array (canonicalItems items)
  | .object fields => .object (Fields.sorted (canonicalFields fields))
  | .null => .null
  | .bool b => .bool b
  | .number n => .number n
  | .string s => .string s

def canonicalItems : List Json → List Json
  | [] => []
  | item :: items => canonical item :: canonicalItems items

def canonicalFields : Fields → Fields
  | [] => []
  | (key, value) :: fields => (key, canonical value) :: canonicalFields fields

end

def ofFields (fields : Fields) : Json := .object (Fields.sorted fields)

def get? (key : Text) : Json → Option Json
  | .object fields => Fields.get? fields key
  | _ => none

def isNull : Json → Bool
  | .null => true
  | _ => false

def string? : Json → Option Text
  | .string s => some s
  | _ => none

def trimmed? (value : Json) : Option Text :=
  (value.string?.map Text.trim).filter fun s => !s.isEmpty

def bool? : Json → Option Bool
  | .bool b => some b
  | _ => none

def array? : Json → Option (List Json)
  | .array items => some items
  | _ => none

def object? : Json → Option Fields
  | .object fields => some fields
  | _ => none

theorem eq_of_object? {v : Json} {fields : Fields} (h : v.object? = some fields) : v = .object fields := by
  cases v with
  | object fields' => exact congrArg Json.object (Option.some.inj h)
  | _ => cases h

/-- An integer of sixty-four signed bits. -/
def integer? : Json → Option Int
  | .number (.integer n) => if n < UInt64.size / 2 then some n else none
  | _ => none

def double? : Json → Option Double
  | .number n => some n.toDouble
  | _ => none

def ofOption {α : Type} (write : α → Json) : Option α → Json
  | none => .null
  | some a => write a

def maxDepth : Nat := 127

/-- A reader and a writer of JSON text. -/
class Codec where
  read? : Text → Option Json
  write : Json → Text

end Json

end Folio
