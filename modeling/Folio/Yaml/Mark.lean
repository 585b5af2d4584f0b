import Folio.Yaml.Place
import Folio.Yaml.Token

set_option autoImplicit false

/-!
# Names, tags and directives

A name follows `&` where a node gets it and `*` where it stands for the node. A tag follows `!`: in
full, by a handle between exclamation marks, or as a local one. A directive is a line that starts with
`%` and gives the version or a handle.

The octets of a tag may be written with percent signs; they have to be those of UTF-8, as far as their
number and their leading bits go. A tag is kept as its octets, one character for each, and a zero ends it.
-/
namespace Folio.Yaml

def name? (s : Text) : Option (Text × Text) :=
  let rest := s.dropWhile isNameChar
  let ends := isEnd rest || rest.head?.any ("?:,]\x7d%@\x60" : Text).contains
  match s.takeWhile isNameChar with
  | [] => none
  | name => if ends then some (name, rest) else none

def isTagChar (c : Char) : Bool := isNameChar c || (";/?:@&=+$.!~*'()" : Text).contains c

def isUriChar (c : Char) : Bool := isTagChar c || c = ',' || c = '[' || c = ']'

def octet? : Text → Option (Nat × Text)
  | '%' :: a :: b :: s => (digits? 16 [a, b]).map fun n => (n, s)
  | _ => none

def followers? (n : Nat) : Option Nat :=
  if n < 0x80 then some 0
  else if n / 0x20 = 0x6 then some 1
  else if n / 0x10 = 0xE then some 2
  else if n / 0x8 = 0x1E then some 3
  else none

def following? : Nat → Text → Option (Text × Text)
  | 0, s => some ([], s)
  | k + 1, s => do
    let (n, s) ← octet? s
    if n / 0x40 ≠ 0x2 then none
    let (t, s) ← following? k s
    some (Char.ofNat n :: t, s)

def octets? (s : Text) : Option (Text × Text) := do
  let (n, s) ← octet? s
  let k ← followers? n
  let (t, s) ← following? k s
  some (Char.ofNat n :: t, s)

/-- The octets of a tag up to the first character that may not stand in it. Each step takes at least one
    character. -/
def uriFrom? (allowed : Char → Bool) : Nat → Text → Option (Text × Text)
  | 0, _ => none
  | _, [] => some ([], [])
  | fuel + 1, c :: s =>
    if c = '%' then do
      let (t, s) ← octets? (c :: s)
      let (u, s) ← uriFrom? allowed fuel s
      some (t ++ u, s)
    else if allowed c then (uriFrom? allowed fuel s).map fun (t, s) => (c :: t, s)
    else some ([], c :: s)

def uri? (allowed : Char → Bool) (s : Text) : Option (Text × Text) :=
  (uriFrom? allowed (s.length + 1) s).map fun (t, s) => (t.takeWhile (· ≠ '\x00'), s)

def someUri? (allowed : Char → Bool) (s : Text) : Option (Text × Text) :=
  (uri? allowed s).filter fun (_, rest) => rest.length < s.length

def handle? (s : Text) : Option (Text × Text) :=
  match s.dropWhile isNameChar with
  | '!' :: rest => some ('!' :: s.takeWhile isNameChar ++ ['!'], rest)
  | _ => none

/-- The tag after an exclamation mark, and the text after it. The mark alone is a tag, too. -/
def tagFrom? (s : Text) : Option (Tag × Text) :=
  match s with
  | '<' :: s =>
    (someUri? isUriChar s).bind fun (t, rest) =>
      match rest with
      | '>' :: rest => some (⟨[], t⟩, rest)
      | _ => none
  | s =>
    match handle? s with
    | some (handle, s) => (someUri? isTagChar s).map fun (t, rest) => (⟨handle, t⟩, rest)
    | none =>
      (uri? isTagChar s).map fun (t, rest) => (if t.isEmpty then ⟨[], "!"⟩ else ⟨"!", t⟩, rest)

def tag? (flow : Bool) (s : Text) : Option (Tag × Text) :=
  (tagFrom? s).filter fun (_, rest) => isEnd rest || (flow && rest.head? = some ',')

def versionNumber? (s : Text) : Option (Nat × Text) :=
  let ds := s.takeWhile Char.isDigit
  if ds.length ≤ 9 then (digits? 10 ds).map fun n => (n, s.dropWhile Char.isDigit) else none

def version? (s : Text) : Option (Token × Text) := do
  let (major, s) ← versionNumber? (s.dropWhile isSpace)
  let s ← Text.dropStart? "." s
  let (minor, s) ← versionNumber? s
  some (.version major minor, s)

def handleDirective? (s : Text) : Option (Token × Text) := do
  let s ← Text.dropStart? "!" (s.dropWhile isSpace)
  let (handle, s) := (handle? s).getD ("!", s)
  if !s.head?.any isSpace then none
  let (t, s) ← someUri? isUriChar (s.dropWhile isSpace)
  if isEnd s then some (.handle handle t, s) else none

def directive? (s : Text) : Option (Token × Text) := do
  let rest := s.dropWhile isNameChar
  if !isEnd rest then none
  let name := s.takeWhile isNameChar
  let (t, s) ←
    if name = "YAML" then version? rest else if name = "TAG" then handleDirective? rest else none
  (Place.endLine? s).map fun s => (t, s)

end Folio.Yaml
