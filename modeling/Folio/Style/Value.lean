import Folio.Json.Basic
import Folio.Number.Numeral
import Folio.Style.Hygiene

set_option autoImplicit false

/-!
# Style values

A value authored in the editor is a number, a text, or a box of four sides; anything else is of no
use. How it is written depends on the property it is for. Whatever is written is a safe value.
-/
namespace Folio.Style

inductive ValueKind where
  /-- Bare numbers are pixels. -/
  | length
  /-- Bare numbers stay as they are. -/
  | unitless
  /-- Texts stay as they are. -/
  | keyword
  /-- A plain URL is wrapped. -/
  | image
deriving DecidableEq, Repr

structure Sides where
  top : Option Json
  right : Option Json
  bottom : Option Json
  left : Option Json

inductive Value where
  | number (x : Double)
  | text (s : Text)
  | sides (s : Sides)
  | other

/-- The shortest positional form of a finite number; zero has no sign. -/
def formatNumber? (x : Double) : Option Text :=
  if !x.isFinite then none else if x.isZero then some "0" else some (Notation.plain.write x)

namespace Sides

def present? (value : Json) : Option Json := if value.isNull then none else some value

def ofFields (fields : Json.Fields) : Sides where
  top := (Json.Fields.get? fields "top").bind present?
  right := (Json.Fields.get? fields "right").bind present?
  bottom := (Json.Fields.get? fields "bottom").bind present?
  left := (Json.Fields.get? fields "left").bind present?

def ofItems (items : List Json) : Sides where
  top := items[0]?.bind present?
  right := items[1]?.bind present?
  bottom := items[2]?.bind present?
  left := items[3]?.bind present?

end Sides

namespace Value

def ofJson? : Json → Option Value
  | .null => none
  | .number n => some (.number n.toDouble)
  | .string s => some (.text s)
  | .object fields => some (.sides (Sides.ofFields fields))
  | .array items => some (if items.length ≤ 4 then .sides (Sides.ofItems items) else .other)
  | .bool _ => some .other

def writeNumber? (kind : ValueKind) (x : Double) : Option Text :=
  (formatNumber? x).bind fun n =>
    match kind with
    | .length => some (if n = "0" then n else n ++ "px")
    | .image => none
    | _ => some n

/-- What an image may start with instead of being a URL. -/
def imageFunctions : List Text := ["url(", "linear-gradient(", "radial-gradient(", "conic-gradient("]

def writeImage? (s : Text) : Option Text :=
  let small := Text.lower s
  if small = "none" || imageFunctions.any fun f => Text.startsWith f small then some s
  else (Link.safeResource? true s).map fun url =>
    "url(\"" ++ Text.replaceChar '"' "%22" url ++ "\")"

def writeText? (kind : ValueKind) (s : Text) : Option Text :=
  if s.isEmpty then none
  else
    match kind with
    | .length =>
      match Numeral.read? s with
      | some x => writeNumber? .length x
      | none => some s
    | .image => writeImage? s
    | _ => some s

def writeSide? : Option Json → Option Text
  | some (.number n) => writeNumber? .length n.toDouble
  | some (.string s) => writeText? .length (Text.trim s)
  | _ => none

/-- The four sides with a space between them; an absent one is zero if any is present. -/
def writeSides? (s : Sides) : Option Text :=
  let parts := [s.top, s.right, s.bottom, s.left].map writeSide?
  if parts.all Option.isNone then none
  else some (Text.join " " (parts.map fun p => p.getD "0"))

def unchecked? (kind : ValueKind) : Value → Option Text
  | .number x => writeNumber? kind x
  | .text s => writeText? kind (Text.trim s)
  | .sides s => if kind = .length then writeSides? s else none
  | .other => none

def write? (kind : ValueKind) (v : Value) : Option Text := (v.unchecked? kind).filter isSafeValue

theorem isSafeValue_of_write? {kind : ValueKind} {v : Value} {s : Text} (h : v.write? kind = some s) :
    isSafeValue s = true := by
  simp only [write?, Option.filter_eq_some_iff] at h
  exact h.2

end Value

end Folio.Style
