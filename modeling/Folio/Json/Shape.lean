import Folio.Json.Reader

set_option autoImplicit false

/-!
# Reading text of a known shape

Where it is known what a text holds, only the fields that are known are read, each at most once. The
value of any other field is passed over: it has to be well formed, but its numbers may have any size,
its strings may name half a surrogate pair, and it may be nested to any depth. A record may also be
written as an array of the values of its fields, in their order.
-/
namespace Folio.Json
namespace Reader

def passChars? : Text → Option Text
  | [] => none
  | '"' :: s => some s
  | '\\' :: 'u' :: a :: b :: c :: d :: s => if (unit? a b c d).isSome then passChars? s else none
  | '\\' :: e :: s => if (letter? e).isSome then passChars? s else none
  | c :: s => if c.toNat < 0x20 || c = '\\' then none else passChars? s

def passString? (s : Text) : Option Text :=
  match s with
  | '"' :: s => passChars? s
  | _ => none

def passItems? (pass? : Text → Option Text) : Nat → Text → Option Text
  | 0, _ => none
  | fuel + 1, s => do
    let s ← pass? (skip s)
    match skip s with
    | ',' :: s => passItems? pass? fuel s
    | ']' :: s => some s
    | _ => none

def passFields? (pass? : Text → Option Text) : Nat → Text → Option Text
  | 0, _ => none
  | fuel + 1, s => do
    let s ← passString? (skip s)
    let s ← Text.dropStart? ":" (skip s)
    let s ← pass? (skip s)
    match skip s with
    | ',' :: s => passFields? pass? fuel s
    | '}' :: s => some s
    | _ => none

def passScalar? (s : Text) : Option Text :=
  match (["null", "true", "false"] : List Text).findSome? fun word => Text.dropStart? word s with
  | some r => some r
  | none => (passString? s).or ((spelling? s).map Prod.snd)

/-- The text after a value. Its nesting is bounded by its length alone. -/
def pass? : Nat → Text → Option Text
  | 0, _ => none
  | fuel + 1, s =>
    match s with
    | '[' :: s =>
      match skip s with
      | ']' :: s => some s
      | s => passItems? (pass? fuel) (s.length + 1) s
    | '{' :: s =>
      match skip s with
      | '}' :: s => some s
      | s => passFields? (pass? fuel) (s.length + 1) s
    | s => passScalar? s

end Reader

inductive Shape where
  /-- Any value, its objects in the order of their keys. -/
  | value
  /-- Any value, its objects as they stand. -/
  | asWritten
  | list (item : Shape)
  | record (fields : List (Text × Shape))

namespace Shape

def positional? : List (Text → Option (Json × Text)) → Text → Option (List Json × Text)
  | [], _ => none
  | read? :: more, s => do
    let (item, s) ← read? (Reader.skip s)
    match Reader.skip s with
    | ',' :: s => (positional? more s).map fun (items, r) => (item :: items, r)
    | ']' :: s => some ([item], s)
    | _ => none

/-- The fields of a record, if none of the known ones stands twice. -/
def known? (names : List Text) (fields : Fields) : Option Fields :=
  let kept := fields.filter fun (key, _) => names.contains key
  if (kept.map Prod.fst).Nodup then some kept else none

def read? : Nat → Shape → Text → Option (Json × Text)
  | depth, value, s => (Reader.value? depth s).map fun (v, r) => (v.canonical, r)
  | depth, asWritten, s => Reader.value? depth s
  | 0, _, s => Reader.scalar? s
  | depth + 1, list item, s =>
    match s with
    | '[' :: s =>
      match Reader.skip s with
      | ']' :: s => some (.array [], s)
      | s =>
        (Reader.items? (read? depth item) (s.length + 1) s).map fun (items, r) => (.array items, r)
    | s => Reader.value? (depth + 1) s
  | depth + 1, record fields, s =>
    match s with
    | '{' :: s =>
      match Reader.skip s with
      | '}' :: s => some (.object [], s)
      | s =>
        let read := fun key s =>
          match fields.lookup key with
          | some shape => read? depth shape s
          | none => (Reader.pass? (s.length + 1) s).map fun r => (.null, r)
        (Reader.fields? read (s.length + 1) s).bind fun (found, r) =>
          (known? (fields.map Prod.fst) found).map fun kept => (.object kept, r)
    | '[' :: s =>
      match Reader.skip s with
      | ']' :: s => some (.array [], s)
      | s =>
        (positional? (fields.map fun (_, shape) => read? depth shape) s).map fun (items, r) =>
          (.array items, r)
    | s => Reader.scalar? s

end Shape

def readAs? (shape : Shape) (s : Text) : Option Json := do
  let (value, rest) ← shape.read? maxDepth (Reader.skip s)
  if (Reader.skip rest).isEmpty then some value else none

/-- The fields of a record from its two forms. In an array the last ones may be missing. -/
def record? (names : List Text) : Json → Option Fields
  | .object fields => some fields
  | .array items => if items.length ≤ names.length then some (names.zip items) else none
  | _ => none

def nullable? {α : Type} (read? : Json → Option α) : Json → Option (Option α)
  | .null => some none
  | value => (read? value).map some

def Fields.read? {α : Type} (read? : Json → Option α) (default : α) (key : Text) (fields : Fields) :
    Option α :=
  match fields.get? key with
  | none => some default
  | some value => read? value

def Fields.require? {α : Type} (read? : Json → Option α) (key : Text) (fields : Fields) : Option α :=
  (fields.get? key).bind read?

end Folio.Json
