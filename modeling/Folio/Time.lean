import Folio.Number.Numeral
import Folio.Text.Blank

set_option autoImplicit false

/-!
# Timestamps

A moment in universal time, on the proleptic Gregorian calendar. It is read from RFC 3339 text with
some freedom: white space may stand before each part, a space may stand for the `T`, and the offset
may be written `Z`, `UTC` or in hours and minutes. It is written with `Z` and with three, six or nine
digits of a fraction, or none. A leap second may end any minute.
-/
namespace Folio

structure Date where
  year : Int
  month : Nat
  day : Nat
deriving DecidableEq, Repr

namespace Date

def isLeapYear (year : Int) : Bool := year % 4 = 0 && (year % 100 ≠ 0 || year % 400 = 0)

def daysIn (year : Int) (month : Nat) : Nat :=
  if month = 2 then (if isLeapYear year then 29 else 28)
  else if month = 4 || month = 6 || month = 9 || month = 11 then 30
  else 31

def firstYear : Int := -262143

def lastYear : Int := 262142

def isValid (d : Date) : Bool :=
  firstYear ≤ d.year && d.year ≤ lastYear && 1 ≤ d.month && d.month ≤ 12 && 1 ≤ d.day &&
    d.day ≤ daysIn d.year d.month

def next (d : Date) : Date :=
  if d.day < daysIn d.year d.month then { d with day := d.day + 1 }
  else if d.month < 12 then ⟨d.year, d.month + 1, 1⟩
  else ⟨d.year + 1, 1, 1⟩

def previous (d : Date) : Date :=
  if 1 < d.day then { d with day := d.day - 1 }
  else if 1 < d.month then ⟨d.year, d.month - 1, daysIn d.year (d.month - 1)⟩
  else ⟨d.year - 1, 12, 31⟩

/-- Four digits for the year, or a sign and four digits at least. -/
def writeYear (year : Int) : Text :=
  if 0 ≤ year && year ≤ 9999 then Text.padded 4 year.toNat
  else (if year < 0 then '-' else '+') :: Text.padded 4 year.natAbs

def write (d : Date) : Text :=
  writeYear d.year ++ "-" ++ Text.padded 2 d.month ++ "-" ++ Text.padded 2 d.day

end Date

structure Timestamp where
  date : Date
  /-- The minute of the day. -/
  minute : Nat
  /-- Sixty for a leap second. -/
  second : Nat
  nanosecond : Nat
deriving DecidableEq, Repr

namespace Timestamp

def writeFraction (nanosecond : Nat) : Text :=
  if nanosecond = 0 then []
  else if nanosecond % 1000000 = 0 then '.' :: Text.padded 3 (nanosecond / 1000000)
  else if nanosecond % 1000 = 0 then '.' :: Text.padded 6 (nanosecond / 1000)
  else '.' :: Text.padded 9 nanosecond

def write (t : Timestamp) : Text :=
  t.date.write ++ "T" ++ Text.padded 2 (t.minute / 60) ++ ":" ++ Text.padded 2 (t.minute % 60) ++
    ":" ++ Text.padded 2 t.second ++ writeFraction t.nanosecond ++ "Z"

def number? (width : Nat) (s : Text) : Option (Nat × Text) :=
  let ds := (s.take width).takeWhile Char.isDigit
  if ds.isEmpty then none else some (Numeral.natOfDigits ds, s.drop ds.length)

def part? (width least most : Nat) (s : Text) : Option (Nat × Text) :=
  (number? width (Text.trimStart s)).filter fun (n, _) => least ≤ n && n ≤ most

def mark? (c : Char) (s : Text) : Option Text := Text.dropStart? [c] (Text.trimStart s)

/-- A year has four digits at most, or a sign. -/
def year? (s : Text) : Option (Int × Text) :=
  match Text.trimStart s with
  | '-' :: s => (number? s.length s).map fun (n, r) => (-(n : Int), r)
  | '+' :: s => (number? s.length s).map fun (n, r) => ((n : Int), r)
  | s => (number? 4 s).map fun (n, r) => ((n : Int), r)

def separator? : Text → Option Text
  | c :: s => if c = 'T' || c = 't' || c = ' ' then some s else none
  | [] => none

def fraction? : Text → Option (Nat × Text)
  | '.' :: s =>
    let (ds, rest) := Numeral.digits s
    if ds.isEmpty then none
    else
      some (Numeral.natOfDigits ((ds ++ List.replicate 9 '0').take 9), rest)
  | s => some (0, s)

def twoDigits? : Text → Option (Nat × Text)
  | a :: b :: s => if a.isDigit && b.isDigit then some (Numeral.natOfDigits [a, b], s) else none
  | _ => none

/-- Hours and minutes after a sign, in minutes. White space or colons may stand between them. -/
def hoursAndMinutes? (s : Text) : Option (Nat × Text) := do
  let (hours, s) ← twoDigits? s
  let (minutes, s) ← twoDigits? (s.dropWhile fun c => c = ':' || Text.isBlank c)
  if hours < 24 && minutes < 60 then some (60 * hours + minutes, s) else none

def offset? (s : Text) : Option (Int × Text) :=
  match Text.dropStartUnder? Char.toLower "utc" s with
  | some r => some (0, r)
  | none =>
    match s with
    | [] => none
    | c :: r =>
      if c = 'Z' || c = 'z' then some (0, r)
      else if c = '+' then (hoursAndMinutes? r).map fun (n, r) => ((n : Int), r)
      else if c = '-' || c = '\u2212' then (hoursAndMinutes? r).map fun (n, r) => (-(n : Int), r)
      else none

def ofLocal (date : Date) (minute : Int) (second nanosecond : Nat) : Timestamp :=
  if minute < 0 then ⟨date.previous, (minute + 1440).toNat, second, nanosecond⟩
  else if 1440 ≤ minute then ⟨date.next, (minute - 1440).toNat, second, nanosecond⟩
  else ⟨date, minute.toNat, second, nanosecond⟩

def read? (s : Text) : Option Timestamp := do
  let (year, s) ← year? s
  let s ← mark? '-' s
  let (month, s) ← part? 2 1 12 s
  let s ← mark? '-' s
  let (day, s) ← part? 2 1 31 s
  let s ← separator? s
  let (hour, s) ← part? 2 0 23 s
  let s ← mark? ':' s
  let (minute, s) ← part? 2 0 59 s
  let s ← mark? ':' s
  let (second, s) ← part? 2 0 60 s
  let (nanosecond, s) ← fraction? s
  let (offset, s) ← offset? (Text.trimStart s)
  let date : Date := ⟨year, month, day⟩
  let moment := ofLocal date (60 * hour + minute - offset) second nanosecond
  if Text.isBlankText s && date.isValid && moment.date.isValid then some moment else none

end Timestamp

end Folio
