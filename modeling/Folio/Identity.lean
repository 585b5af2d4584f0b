import Folio.Json.Basic
import Folio.Text.Blank

set_option autoImplicit false

/-!
# Element ids

A composed page holds nodes of several trees, and every element gets an id of its own. The id comes
from what the author wrote, or else from the scope of the tree and the id of the node; one that is
taken already gets the least free number from two on.
-/
namespace Folio

inductive Scope where
  | page
  | header
  | footer
  | notFound
deriving DecidableEq, Repr

namespace Identity

def scopeMark : Scope → Text
  | .page => "pc"
  | .header => "hd"
  | .footer => "ft"
  | .notFound => "nf"

def isTokenChar (c : Char) : Bool := c.isAlphanum || c = '_'

/-- The token that stands for a text without any token character. -/
def emptyToken : Text := "node"

def runs (s : Text) : List Text :=
  (Text.split '-' (s.map fun c => if isTokenChar c then c else '-')).filter fun w => !w.isEmpty

/-- A text as a class or an id: its runs of token characters, with a hyphen between them. -/
def token (s : Text) : Text :=
  let words := runs s
  if words.isEmpty then emptyToken else Text.join "-" words

def withLetter (t : Text) : Text :=
  if (t.head?.any Char.isAlpha) then t else "el-" ++ t

def authored? (props : Json.Fields) : Option Text := do
  let metadata ← Json.Fields.get? props "metadata"
  let written ← (metadata.get? "elementId").bind Json.string?
  let t := token (Text.trim written)
  if t = emptyToken then none else some (withLetter t)

def base (scope : Scope) (nodeId : Text) (props : Json.Fields) : Text :=
  (authored? props).getD (scopeMark scope ++ "-" ++ token nodeId)

def numbered (base : Text) (n : Nat) : Text := base ++ "-" ++ Text.ofNat n

/-- The first free numbered form, from `n` on. Of `fuel` forms at most as many are taken as there are
    taken ids. -/
def firstFree (taken : List Text) (base : Text) : Nat → Nat → Text
  | 0, n => numbered base n
  | fuel + 1, n =>
    if taken.contains (numbered base n) then firstFree taken base fuel (n + 1) else numbered base n

end Identity

/-- The ids that are taken, the latest first. -/
structure Registry where
  taken : List Text
deriving DecidableEq, Repr

namespace Registry

def empty : Registry := ⟨[]⟩

def free (r : Registry) (base : Text) : Text :=
  if r.taken.contains base then Identity.firstFree r.taken base r.taken.length 2 else base

def claim (r : Registry) (base : Text) : Text × Registry :=
  let id := r.free base
  (id, ⟨id :: r.taken⟩)

def assign (r : Registry) (scope : Scope) (nodeId : Text) (props : Json.Fields) : Text × Registry :=
  r.claim (Identity.base scope nodeId props)

end Registry

end Folio
