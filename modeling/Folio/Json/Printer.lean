import Folio.Json.Reader

set_option autoImplicit false

/-!
# Writing JSON

Without spaces. A string escapes the quote, the backslash and the control characters below the
space, five of them by a letter.
-/
namespace Folio.Json
namespace Printer

def hexDigit (n : Nat) : Char := if n < 10 then Char.ofNat (48 + n) else Char.ofNat (87 + n)

def escape (c : Char) : Text :=
  if c = '"' then "\\\""
  else if c = '\\' then "\\\\"
  else if c = '\x08' then "\\b"
  else if c = '\x0c' then "\\f"
  else if c = '\n' then "\\n"
  else if c = '\r' then "\\r"
  else if c = '\t' then "\\t"
  else if c.toNat < 0x20 then "\\u00" ++ [hexDigit (c.toNat / 16), hexDigit (c.toNat % 16)]
  else [c]

def string (s : Text) : Text := '"' :: s.flatMap escape ++ "\""

end Printer

mutual

def write : Json → Text
  | .null => "null"
  | .bool true => "true"
  | .bool false => "false"
  | .number n => n.write
  | .string s => Printer.string s
  | .array items => '[' :: Text.join "," (writeItems items) ++ "]"
  | .object fields => '{' :: Text.join "," (writeFields fields) ++ ['}']

def writeItems : List Json → List Text
  | [] => []
  | item :: items => write item :: writeItems items

def writeFields : Fields → List Text
  | [] => []
  | (key, value) :: fields => (Printer.string key ++ ':' :: write value) :: writeFields fields

end

/-- The codec that the program runs with. -/
instance : Codec := ⟨read?, write⟩

end Folio.Json
