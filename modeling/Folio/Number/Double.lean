set_option autoImplicit false

/-!
# Double-precision numbers

A finite double is `± mantissa * 2 ^ exponent` and is computed with exactly: an operation is the
exact quotient of two naturals, rounded once to the nearest double, ties to the even mantissa.
The written forms live in `Folio.Number.Shortest` and `Folio.Number.Numeral`.
-/
namespace Folio

inductive Double where
  | nan
  | infinite (negative : Bool)
  | finite (negative : Bool) (mantissa : Nat) (exponent : Int)
deriving DecidableEq, Repr

namespace Double

def leastExponent : Int := -1074

def greatestExponent : Int := 971

def leastFull : Nat := Nat.pow 2 52

/-- Doubles as they are kept: the mantissa has full width, or the exponent is that of the finest grid. -/
def Proper : Double → Prop
  | .finite _ m e => m < 2 * leastFull ∧ (leastFull ≤ m ∨ e = leastExponent) ∧
      leastExponent ≤ e ∧ e ≤ greatestExponent
  | _ => True

def zero : Double := .finite false 0 leastExponent

def power (base : Nat) (exponent : Int) : Nat := Nat.pow base exponent.toNat

/-- The quotient rounded to the nearest natural, a tie to the even one. -/
def roundEven (num den : Nat) : Nat :=
  let q := num / den
  let r := num % den
  if 2 * r < den then q else if den < 2 * r then q + 1 else if q % 2 = 0 then q else q + 1

theorem roundEven_near (num den : Nat) (h : 0 < den) :
    2 * (roundEven num den * den) ≤ 2 * num + den ∧ 2 * num ≤ 2 * (roundEven num den * den) + den := by
  have e : den * (num / den) + num % den = num := Nat.div_add_mod num den
  have l : num % den < den := Nat.mod_lt _ h
  have hq : (num / den + 1) * den = den * (num / den) + den := by
    rw [Nat.add_mul, Nat.mul_comm]; simp
  have hq0 : num / den * den = den * (num / den) := Nat.mul_comm ..
  simp only [roundEven]
  split
  · omega
  · split
    · omega
    · split <;> omega

def binaryScale (num den : Nat) : Int :=
  let e : Int := (num.log2 : Int) - (den.log2 : Int)
  if den * power 2 e ≤ num * power 2 (-e) then e else e - 1

/-- A rounded mantissa; one that has grown past its width moves to the next exponent. -/
def ofParts (negative : Bool) (mantissa : Nat) (exponent : Int) : Double :=
  let grown := mantissa = 2 * leastFull
  let exponent := if grown then exponent + 1 else exponent
  if greatestExponent < exponent then .infinite negative
  else .finite negative (if grown then leastFull else mantissa) exponent

def ofRatio (negative : Bool) (num den : Nat) : Double :=
  if num = 0 then .finite negative 0 leastExponent
  else
    let e := max (binaryScale num den - 52) leastExponent
    ofParts negative (roundEven (num * power 2 (-e)) (den * power 2 e)) e

def ofInt (n : Int) : Double := ofRatio (n < 0) n.natAbs 1

/-- The double nearest to `digits * 10 ^ exponent`. Far outside the range of doubles the exponent
    alone decides. -/
def ofDecimal (negative : Bool) (digits : Nat) (exponent : Int) : Double :=
  if digits = 0 then .finite negative 0 leastExponent
  else
    let top : Int := digits.log2 + 1
    if 400 < exponent then .infinite negative
    else if 4 * exponent + 2 * top < -3000 then .finite negative 0 leastExponent
    else ofRatio negative (digits * power 10 exponent) (power 10 (-exponent))

def isFinite : Double → Bool
  | .finite .. => true
  | _ => false

def isZero : Double → Bool
  | .finite _ m _ => m = 0
  | _ => false

def isBelowZero : Double → Bool
  | .finite negative m _ => negative && m ≠ 0
  | .infinite negative => negative
  | .nan => false

def isAboveZero : Double → Bool
  | .finite negative m _ => !negative && m ≠ 0
  | .infinite negative => !negative
  | .nan => false

def negate : Double → Double
  | .nan => .nan
  | .infinite negative => .infinite !negative
  | .finite negative m e => .finite (!negative) m e

def ratio (mantissa : Nat) (exponent : Int) : Nat × Nat :=
  (mantissa * power 2 exponent, power 2 (-exponent))

/-- A number times the double nearest to `10 ^ k`, or divided by the one nearest to `10 ^ -k` when
    `k` is negative, rounded once. -/
def scaleByTen (x : Double) (k : Int) : Double :=
  match x, ofRatio false (power 10 k.natAbs) 1 with
  | .finite negative m e, .finite _ p q =>
    let (a, b) := ratio m e
    let (c, d) := ratio p q
    if 0 ≤ k then ofRatio negative (a * c) (b * d) else ofRatio negative (a * d) (b * c)
  | x, _ => x

def roundAway : Double → Option Int
  | .finite negative m e =>
    let (a, b) := ratio m e
    let n : Nat := (2 * a + b) / (2 * b)
    some (if negative then -(n : Int) else n)
  | _ => none

end Double

end Folio
