import Folio.Yaml.Basic

set_option autoImplicit false

/-!
# Socket addresses

A host number and a port: four octets, or eight groups in brackets, perhaps with a zone number. Each
reader answers with the text after what it reads. In the groups `::` stands for the missing ones, and
two of them may be written as four octets.
-/
namespace Folio.SocketAddress

/-- A number below a bound, of at most `width` digits; leading zeros are allowed or not. -/
def number? (radix bound : Nat) (width : Option Nat) (zeros : Bool) (s : Text) : Option Text :=
  let ds := s.takeWhile fun c => Yaml.digitValue c < radix
  match Yaml.digits? radix ds with
  | none => none
  | some n =>
    let leading := ds.head? = some '0' && 1 < ds.length
    if n < bound && width.all (ds.length ≤ ·) && (zeros || !leading) then some (s.drop ds.length)
    else none

def octet? (s : Text) : Option Text := number? 10 256 (some 3) false s

def octets? (s : Text) : Option Text := do
  let s ← octet? s
  let s ← (Text.dropStart? "." s).bind octet?
  let s ← (Text.dropStart? "." s).bind octet?
  (Text.dropStart? "." s).bind octet?

def colon? (first : Bool) (s : Text) : Option Text := if first then some s else Text.dropStart? ":" s

/-- The number of groups at the start of a text, at most a given one; whether they end in octets, which
    count as two; and the text after them. -/
def groups : Nat → Bool → Text → Nat × Bool × Text
  | 0, _, s => (0, false, s)
  | left + 1, first, s =>
    match if 0 < left then (colon? first s).bind octets? else none with
    | some r => (2, true, r)
    | none =>
      match (colon? first s).bind (number? 16 65536 (some 4) true) with
      | some r =>
        let (n, dotted, r) := groups left false r
        (n + 1, dotted, r)
      | none => (0, false, s)

def eightGroups? (s : Text) : Option Text :=
  let (n, dotted, r) := groups 8 true s
  if n = 8 then some r
  else if dotted then none
  else (Text.dropStart? "::" r).map fun r => (groups (7 - n) true r).2.2

def passZone (s : Text) : Text :=
  ((Text.dropStart? "%" s).bind (number? 10 UInt32.size none true)).getD s

def port? (s : Text) : Option Text := (Text.dropStart? ":" s).bind (number? 10 65536 none true)

def bracketed? (s : Text) : Option Text := do
  let s ← (Text.dropStart? "[" s).bind eightGroups?
  Text.dropStart? "]" (passZone s)

def isAddress (s : Text) : Bool :=
  ((octets? s).bind port?) = some [] || ((bracketed? s).bind port?) = some []

end Folio.SocketAddress
