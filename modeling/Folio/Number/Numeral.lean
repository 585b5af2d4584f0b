import Folio.Number.Double
import Folio.Text.Fold

set_option autoImplicit false

/-!
# Reading numerals

The written forms of a double: an optional sign, then digits with at most one point and at least
one digit, then an optional exponent; or one of the words `inf`, `infinity` and `nan` in any case.
Nothing may stand around the numeral. The number is the double nearest to the decimal.
-/
namespace Folio.Numeral

def digitValue (c : Char) : Nat := c.toNat - '0'.toNat

def natOfDigits (ds : Text) : Nat := ds.foldl (fun n c => 10 * n + digitValue c) 0

def digits (s : Text) : Text × Text := s.span Char.isDigit

def sign : Text → Bool × Text
  | '-' :: s => (true, s)
  | '+' :: s => (false, s)
  | s => (false, s)

/-- The exponent that makes up the whole of a text. -/
def exponent? : Text → Option Int
  | [] => some 0
  | c :: s =>
    if c = 'e' || c = 'E' then
      let (negative, s) := sign s
      let (ds, rest) := digits s
      if ds.isEmpty || !rest.isEmpty then none
      else some (if negative then -(natOfDigits ds : Int) else natOfDigits ds)
    else none

def fraction : Text → Text × Text
  | '.' :: s => digits s
  | s => ([], s)

def unsigned? (negative : Bool) (s : Text) : Option Double :=
  let (whole, rest) := digits s
  let (part, rest) := fraction rest
  if whole.isEmpty && part.isEmpty then none
  else (exponent? rest).map fun e =>
    Double.ofDecimal negative (natOfDigits (whole ++ part)) (e - part.length)

def word? (negative : Bool) (s : Text) : Option Double :=
  let w := Text.lower s
  if w = "nan" then some .nan
  else if w = "inf" || w = "infinity" then some (.infinite negative)
  else none

def read? (s : Text) : Option Double :=
  let (negative, s) := sign s
  (unsigned? negative s).or (word? negative s)

end Folio.Numeral
