import Folio.Json.Basic
import Folio.Link.Url
import Folio.Number.Numeral

set_option autoImplicit false

/-!
# Props of a node

What the author set on a node, read leniently: a value of the wrong type counts as absent.
-/
namespace Folio

abbrev Props := Json.Fields

structure LinkTarget where
  href : Text
  newTab : Bool
deriving DecidableEq, Repr

namespace Props

def get? (p : Props) (key : Text) : Option Json := Json.Fields.get? p key

def string? (p : Props) (key : Text) : Option Text :=
  (get? p key).bind Json.trimmed?

def firstString? (p : Props) (keys : List Text) : Option Text := keys.findSome? (string? p)

/-- Text to show: a string that is not empty, as it is, or a number. -/
def text? (p : Props) (key : Text) : Option Text :=
  match get? p key with
  | some (.string s) => if s.isEmpty then none else some s
  | some (.number n) => some n.write
  | _ => none

def firstText? (p : Props) (keys : List Text) : Option Text := keys.findSome? (text? p)

def bool? (p : Props) (key : Text) : Option Bool :=
  match get? p key with
  | some (.bool b) => some b
  | some (.string s) => if s = "true" then some true else if s = "false" then some false else none
  | _ => none

def dropUnit (unit : Text) : Nat → Text → Text
  | 0, s => s
  | fuel + 1, s =>
    match Text.dropEnd? unit s with
    | some r => dropUnit unit fuel r
    | none => s

/-- A finite number, or a string that spells one, in pixels perhaps. -/
def double? (p : Props) (key : Text) : Option Double :=
  let x := match get? p key with
    | some (.number n) => some n.toDouble
    | some (.string s) => Numeral.read? (dropUnit "px" s.length (Text.trim s))
    | _ => none
  x.filter Double.isFinite

/-- The link of a node; a target that is not safe becomes `#`. -/
def link? (p : Props) : Option LinkTarget :=
  (firstString? p ["href", "link", "url"]).map fun written =>
    { href := (Link.safeLink? written).getD "#"
      newTab := string? p "target" = some ("_blank" : Text) || bool? p "openInNewTab" = some true }

end Props

end Folio
