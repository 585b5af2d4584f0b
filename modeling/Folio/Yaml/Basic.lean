import Folio.Text.Blank

set_option autoImplicit false

/-!
# YAML values

A scalar is kept as its text, together with how it was written and its tag: only a scalar written bare
can be null, a boolean or a number. The entries of a mapping stand in the order they were written.
-/
namespace Folio

inductive Yaml.ScalarStyle where
  | plain
  | literal
  | folded
  | quoted
deriving DecidableEq, Repr

inductive Yaml where
  | scalar (style : Yaml.ScalarStyle) (tag : Option Text) (text : Text)
  | sequence (items : List Yaml)
  | mapping (entries : List (Yaml × Yaml))
deriving Repr

namespace Yaml

def standardTag (name : Text) : Text := "tag:yaml.org,2002:" ++ name

def nullWords : List Text := ["~", "null", "Null", "NULL"]

def trueWords : List Text := ["true", "True", "TRUE"]

def falseWords : List Text := ["false", "False", "FALSE"]

def text? : Yaml → Option Text
  | scalar _ _ s => some s
  | _ => none

def nullableText? : Yaml → Option (Option Text)
  | scalar .plain none s => some (if s.isEmpty || nullWords.contains s then none else some s)
  | scalar .plain (some tag) s =>
    if tag ≠ standardTag "null" then some (some s)
    else if nullWords.contains s then some none
    else none
  | scalar _ _ s => some (some s)
  | _ => none

/-- The text of a scalar that may spell a value of a type: a plain one, or a literal one with the tag
    of the type. -/
def bare? (name : Text) : Yaml → Option Text
  | scalar .plain _ s => some s
  | scalar .literal (some tag) s => if tag = standardTag name then some s else none
  | _ => none

def truth? (s : Text) : Option Bool :=
  if trueWords.contains s then some true else if falseWords.contains s then some false else none

def bool? (value : Yaml) : Option Bool := (value.bare? "bool").bind truth?

def digitValue (c : Char) : Nat :=
  if c.isDigit then c.toNat - '0'.toNat
  else if 'a' ≤ c && c ≤ 'f' then c.toNat - 'a'.toNat + 10
  else if 'A' ≤ c && c ≤ 'F' then c.toNat - 'A'.toNat + 10
  else 16

def digits? (radix : Nat) (s : Text) : Option Nat :=
  if s.isEmpty || s.any (fun c => radix ≤ digitValue c) then none
  else some (s.foldl (fun n c => radix * n + digitValue c) 0)

def decimal? (s : Text) : Option Nat :=
  if s.head? = some '0' && 1 < s.length then none else digits? 10 s

def numeral? (s : Text) : Option Nat :=
  let s := (Text.dropStart? "+" s).getD s
  match Text.dropStart? "0x" s, Text.dropStart? "0o" s, Text.dropStart? "0b" s with
  | some r, _, _ => digits? 16 r
  | _, some r, _ => digits? 8 r
  | _, _, some r => digits? 2 r
  | none, none, none => decimal? s

def natural? (bound : Nat) (value : Yaml) : Option Nat :=
  ((value.bare? "int").bind numeral?).filter fun n => n < bound

end Yaml

end Folio
