import Folio.Number.Double
import Folio.Text.Basic

set_option autoImplicit false

/-!
# The fewest digits that read back

A positive double stands for the interval of reals that round to it. Its decimal is the one with
the fewest digits in that interval, and of several the nearest. The search tries one digit, two
digits, and so on: on each decimal grid only the two neighbours of the value have to be looked at.

`Notation` says how the digits are laid out.
-/
namespace Folio

structure Decimal where
  coefficient : Nat
  exponent : Int
deriving DecidableEq, Repr

namespace Decimal

inductive Tie where
  | toEven
  | up
deriving DecidableEq, Repr

def compareWith (d : Decimal) (num den : Nat) : Ordering :=
  compare (d.coefficient * Double.power 10 d.exponent * den) (num * Double.power 10 (-d.exponent))

/-- Whether a decimal rounds to `mantissa * 2 ^ exponent`. The gap below a power of two is half as
    wide as the gap above; the ends belong to the interval when the mantissa is even. -/
def readsBack (mantissa : Nat) (exponent : Int) (d : Decimal) : Bool :=
  let narrow := mantissa = Double.leastFull && Double.leastExponent < exponent
  let low := Double.ratio (if narrow then 4 * mantissa - 1 else 4 * mantissa - 2) (exponent - 2)
  let high := Double.ratio (4 * mantissa + 2) (exponent - 2)
  let closed := mantissa % 2 = 0
  let atLow := d.compareWith low.1 low.2
  let atHigh := d.compareWith high.1 high.2
  (atLow == .gt || (closed && atLow == .eq)) && (atHigh == .lt || (closed && atHigh == .eq))

/-- The least `k` with `num / den < 10 ^ k`, found from the binary scale. -/
def decade (num den : Nat) : Int :=
  let k : Int := (Double.binaryScale num den * 30103).fdiv 100000
  let below (k : Int) : Bool := num * Double.power 10 (-k) < den * Double.power 10 k
  if below k then k else if below (k + 1) then k + 1 else k + 2

def neighbours (tie : Tie) (num den : Nat) (exponent : Int) : List Decimal :=
  let a := num * Double.power 10 (-exponent)
  let b := den * Double.power 10 exponent
  let q := a / b
  let r := a % b
  let low : Decimal := ⟨q, exponent⟩
  let high : Decimal := ⟨q + 1, exponent⟩
  let lowFirst := 2 * r < b || (2 * r = b && tie = .toEven && q % 2 = 0)
  if lowFirst then [low, high] else [high, low]

def strip : Nat → Decimal → Decimal
  | 0, d => d
  | fuel + 1, d =>
    if d.coefficient % 10 = 0 && d.coefficient ≠ 0 then strip fuel ⟨d.coefficient / 10, d.exponent + 1⟩
    else d

/-- The shortest decimal of a positive double. Seventeen digits always suffice. -/
def shortest (tie : Tie) (mantissa : Nat) (exponent : Int) : Decimal :=
  let (num, den) := Double.ratio mantissa exponent
  let k := decade num den
  let found := (List.range 17).findSome? fun n =>
    (neighbours tie num den (k - (n + 1 : Nat))).find? (readsBack mantissa exponent)
  strip 18 (found.getD ⟨mantissa * Double.power 5 (-exponent) * Double.power 2 exponent, min exponent 0⟩)

def leading (d : Decimal) : Int := (Text.ofNat d.coefficient).length + d.exponent - 1

def zeros (n : Nat) : Text := List.replicate n '0'

def positional (d : Decimal) : Text :=
  let digits := Text.ofNat d.coefficient
  if 0 ≤ d.exponent then digits ++ zeros d.exponent.toNat
  else
    let places := (-d.exponent).toNat
    if digits.length ≤ places then "0." ++ zeros (places - digits.length) ++ digits
    else digits.take (digits.length - places) ++ '.' :: digits.drop (digits.length - places)

def scientific (d : Decimal) : Text :=
  let e := d.leading
  let power := (if e < 0 then "e-" else "e+" : Text) ++ Text.ofNat e.natAbs
  match Text.ofNat d.coefficient with
  | [] => power
  | [c] => c :: power
  | c :: rest => c :: '.' :: rest ++ power

end Decimal

structure Notation where
  tie : Decimal.Tie
  /-- Exponents of the leading digit from `plainFrom` to `plainTo` are written positionally; where
      there are no bounds all are. -/
  plainRange : Option (Int × Int)
  /-- Whether an integral number written positionally keeps a zero after the point. -/
  pointZero : Bool

namespace Notation

def layOut (style : Notation) (d : Decimal) : Text :=
  let plain := match style.plainRange with
    | none => true
    | some (low, high) => low ≤ d.leading && d.leading ≤ high
  if plain then d.positional ++ (if style.pointZero && 0 ≤ d.exponent then ".0" else "")
  else d.scientific

def magnitude (style : Notation) (mantissa : Nat) (exponent : Int) : Text :=
  if mantissa = 0 then (if style.pointZero then "0.0" else "0")
  else style.layOut (Decimal.shortest style.tie mantissa exponent)

def write (style : Notation) : Double → Text
  | .nan => "NaN"
  | .infinite negative => if negative then "-inf" else "inf"
  | .finite negative m e => (if negative then "-" else "" : Text) ++ style.magnitude m e

def plain : Notation := ⟨.up, none, false⟩

/-- Positional where the leading digit stands between the fifth decimal place and the sixteenth
    digit before the point, always with a point; otherwise with a signed exponent. -/
def general : Notation := ⟨.toEven, some (-5, 15), true⟩

end Notation

end Folio
