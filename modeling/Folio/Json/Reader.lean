import Folio.Json.Basic
import Folio.Number.Numeral

set_option autoImplicit false

/-!
# Reading JSON

`readAsWritten?` keeps the fields of an object as they stand, repetitions included; `read?` orders
them. Arrays and objects may be nested 127 deep. Strings hold no raw control character, and their
escapes spell out characters, a surrogate pair one character.

A number is an integer when it has neither point nor exponent and fits sixty-four bits. Any other is
the double that comes from its leading digits, as many as fit sixty-four bits, scaled by a power of
ten; `-0` is a double too. A number beyond the doubles is refused.
-/
namespace Folio.Json
namespace Reader

def isSpace (c : Char) : Bool := c == ' ' || c == '\n' || c == '\t' || c == '\r'

def skip (s : Text) : Text := s.dropWhile isSpace

/-- Takes digits into a number as long as it fits sixty-four bits; the digits left over. -/
def absorb : Nat → Text → Nat × Text
  | n, [] => (n, [])
  | n, c :: s =>
    let m := 10 * n + Numeral.digitValue c
    if m < UInt64.size then absorb m s else (n, c :: s)

/-- The double of `significand * 10 ^ exponent`: the rounded significand is scaled once, or twice
    where the power of ten is itself out of range. -/
def scaled? (significand : Nat) (exponent : Int) : Option Double :=
  let x := Double.ofRatio false significand 1
  if x.isZero then some x
  else if 308 < exponent then none
  else if -308 ≤ exponent then
    let y := x.scaleByTen exponent
    if y.isFinite then some y else none
  else if -616 ≤ exponent then some ((x.scaleByTen (-308)).scaleByTen (exponent + 308))
  else some Double.zero

def real? (negative : Bool) (whole part : Text) (exponent : Int) : Option Number :=
  let (n, spilled) := absorb 0 whole
  let (m, left) := absorb n part
  let x := scaled? m (exponent + spilled.length - (part.length - left.length : Nat))
  x.map fun x => .real (if negative then x.negate else x)

def integer? (negative : Bool) (whole : Text) : Option Number :=
  let n := Numeral.natOfDigits whole
  if negative then
    if n = 0 || UInt64.size / 2 < n then real? true whole [] 0 else some (.integer (-(n : Int)))
  else if n < UInt64.size then some (.integer n)
  else real? false whole [] 0

def fraction? : Text → Option (Option Text × Text)
  | '.' :: s =>
    let (ds, rest) := Numeral.digits s
    if ds.isEmpty then none else some (some ds, rest)
  | s => some (none, s)

def exponent? : Text → Option (Option Int × Text)
  | [] => some (none, [])
  | c :: s =>
    if c = 'e' || c = 'E' then
      let (negative, s) := Numeral.sign s
      let (ds, rest) := Numeral.digits s
      if ds.isEmpty then none
      else
        let n : Int := Numeral.natOfDigits ds
        some (some (if negative then -n else n), rest)
    else some (none, c :: s)

def minus : Text → Bool × Text
  | '-' :: s => (true, s)
  | s => (false, s)

structure Spelling where
  negative : Bool
  whole : Text
  part : Option Text
  exponent : Option Int

def spelling? (s : Text) : Option (Spelling × Text) := do
  let (negative, s) := minus s
  let (whole, s) := Numeral.digits s
  if whole.isEmpty || (whole.head? = some '0' && 1 < whole.length) then none
  let (part, s) ← fraction? s
  let (exponent, s) ← exponent? s
  some (⟨negative, whole, part, exponent⟩, s)

def Spelling.number? (w : Spelling) : Option Number :=
  if w.part.isNone && w.exponent.isNone then integer? w.negative w.whole
  else real? w.negative w.whole (w.part.getD []) (w.exponent.getD 0)

def number? (s : Text) : Option (Number × Text) :=
  (spelling? s).bind fun (w, r) => w.number?.map fun n => (n, r)

def hexDigit? (c : Char) : Option Nat :=
  if c.isDigit then some (c.toNat - '0'.toNat)
  else if 'a' ≤ c && c ≤ 'f' then some (c.toNat - 'a'.toNat + 10)
  else if 'A' ≤ c && c ≤ 'F' then some (c.toNat - 'A'.toNat + 10)
  else none

def unit? (a b c d : Char) : Option Nat := do
  let a ← hexDigit? a
  let b ← hexDigit? b
  let c ← hexDigit? c
  let d ← hexDigit? d
  some (((a * 16 + b) * 16 + c) * 16 + d)

def isLeading (n : Nat) : Bool := 0xD800 ≤ n && n ≤ 0xDBFF

def isTrailing (n : Nat) : Bool := 0xDC00 ≤ n && n ≤ 0xDFFF

def letter? : Char → Option Char
  | '"' => some '"'
  | '\\' => some '\\'
  | '/' => some '/'
  | 'b' => some '\x08'
  | 'f' => some '\x0c'
  | 'n' => some '\n'
  | 'r' => some '\r'
  | 't' => some '\t'
  | _ => none

def chars? : Text → Option (Text × Text)
  | [] => none
  | '"' :: s => some ([], s)
  | '\\' :: 'u' :: a :: b :: c :: d :: s =>
    match unit? a b c d with
    | none => none
    | some n =>
      if isLeading n then
        match s with
        | '\\' :: 'u' :: e :: f :: g :: h :: s =>
          match unit? e f g h with
          | none => none
          | some m =>
            if isTrailing m then
              (chars? s).map fun (t, r) =>
                (Char.ofNat (0x10000 + (n - 0xD800) * 0x400 + (m - 0xDC00)) :: t, r)
            else none
        | _ => none
      else if isTrailing n then none
      else (chars? s).map fun (t, r) => (Char.ofNat n :: t, r)
  | '\\' :: e :: s =>
    match letter? e with
    | none => none
    | some c => (chars? s).map fun (t, r) => (c :: t, r)
  | c :: s => if c.toNat < 0x20 || c = '\\' then none else (chars? s).map fun (t, r) => (c :: t, r)

def string? (s : Text) : Option (Text × Text) :=
  match s with
  | '"' :: s => chars? s
  | _ => none

/-- The values of an array after its first bracket. Each takes at least one character, so the
    length of the text bounds their number. -/
def items? (value? : Text → Option (Json × Text)) : Nat → Text → Option (List Json × Text)
  | 0, _ => none
  | fuel + 1, s => do
    let (item, s) ← value? (skip s)
    match skip s with
    | ',' :: s => (items? value? fuel s).map fun (items, r) => (item :: items, r)
    | ']' :: s => some ([item], s)
    | _ => none

def field? (value? : Text → Text → Option (Json × Text)) (s : Text) :
    Option ((Text × Json) × Text) := do
  let (key, s) ← string? (skip s)
  match skip s with
  | ':' :: s => (value? key (skip s)).map fun (value, r) => ((key, value), r)
  | _ => none

def fields? (value? : Text → Text → Option (Json × Text)) : Nat → Text → Option (Fields × Text)
  | 0, _ => none
  | fuel + 1, s => do
    let (field, s) ← field? value? s
    match skip s with
    | ',' :: s => (fields? value? fuel s).map fun (fields, r) => (field :: fields, r)
    | '}' :: s => some ([field], s)
    | _ => none

def scalar? (s : Text) : Option (Json × Text) :=
  match Text.dropStart? "null" s, Text.dropStart? "true" s, Text.dropStart? "false" s with
  | some r, _, _ => some (.null, r)
  | _, some r, _ => some (.bool true, r)
  | _, _, some r => some (.bool false, r)
  | none, none, none =>
    match s with
    | '"' :: s => (chars? s).map fun (t, r) => (.string t, r)
    | s => (number? s).map fun (n, r) => (.number n, r)

def value? : Nat → Text → Option (Json × Text)
  | 0, s => scalar? s
  | depth + 1, s =>
    match s with
    | '[' :: s =>
      match skip s with
      | ']' :: s => some (.array [], s)
      | s => (items? (value? depth) (s.length + 1) s).map fun (items, r) => (.array items, r)
    | '{' :: s =>
      match skip s with
      | '}' :: s => some (.object [], s)
      | s =>
        (fields? (fun _ => value? depth) (s.length + 1) s).map fun (fields, r) => (.object fields, r)
    | s => scalar? s

end Reader

/-- The value a text spells, with the fields of its objects as they stand. -/
def readAsWritten? (s : Text) : Option Json := do
  let (value, rest) ← Reader.value? maxDepth (Reader.skip s)
  if (Reader.skip rest).isEmpty then some value else none

def read? (s : Text) : Option Json := (readAsWritten? s).map canonical

end Folio.Json
