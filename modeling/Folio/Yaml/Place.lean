import Folio.Text.Basic

set_option autoImplicit false

/-!
# Places in a YAML text

Lines and columns matter in YAML, so a scanner keeps its place. A line ends at a line feed, a line
separator or a paragraph separator; the other ways of ending one are line feeds by the time a text is
scanned. Before a token there may be white space, comments and line breaks, and a byte order mark may
start a line.
-/
namespace Folio.Yaml

def isSpace (c : Char) : Bool := c = ' ' || c = '\t'

def isBreak (c : Char) : Bool := c = '\n' || c = '\u2028' || c = '\u2029'

def isEnd : Text → Bool
  | [] => true
  | c :: _ => isSpace c || isBreak c

def isNameChar (c : Char) : Bool := c.isAlphanum || c = '_' || c = '-'

def isFlowMark (c : Char) : Bool := c = ',' || c = '[' || c = ']' || c = '{' || c = '}'

def isMarker (s : Text) : Bool :=
  (["---", "..."] : List Text).any fun mark => (Text.dropStart? mark s).any isEnd

/-- Where a character stands: its line, its column, and the bytes before it on its line. -/
structure Spot where
  line : Nat
  column : Nat
  offset : Nat
deriving DecidableEq, Repr

namespace Spot

def start : Spot := ⟨0, 0, 0⟩

def nextLine (spot : Spot) : Spot := ⟨spot.line + 1, 0, 0⟩

def next (c : Char) (spot : Spot) : Spot :=
  if isBreak c then spot.nextLine
  else { spot with column := spot.column + 1, offset := spot.offset + c.utf8Size }

end Spot

structure Place where
  spot : Spot
  rest : Text

namespace Place

def after (p : Place) (n : Nat) (rest : Text) : Place :=
  ⟨{ p.spot with column := p.spot.column + n, offset := p.spot.offset + n }, rest⟩

def upTo (p : Place) (rest : Text) : Place := p.after (p.rest.length - rest.length) rest

/-- The place of the next token, and whether a key may start there. White space, comments and line
    breaks are passed over; outside of brackets a key may start on every new line, and no tab may stand
    before it. -/
def passFrom (flow comment keys : Bool) (spot : Spot) : Text → Place × Bool
  | [] => (⟨spot, []⟩, keys)
  | c :: s =>
    if isBreak c then passFrom flow false (keys || !flow) (spot.next c) s
    else if comment || c = '#' then passFrom flow true keys (spot.next c) s
    else if c = ' ' || (c = '\t' && (flow || !keys)) || (c = '\uFEFF' && spot.column = 0) then
      passFrom flow false keys (spot.next c) s
    else (⟨spot, c :: s⟩, keys)

def pass (flow keys : Bool) (p : Place) : Place × Bool := passFrom flow false keys p.spot p.rest

def endLine? (s : Text) : Option Text :=
  let s := s.dropWhile isSpace
  let s := if s.head? = some '#' then s.dropWhile fun c => !isBreak c else s
  match s with
  | [] => some []
  | c :: s => if isBreak c then some s else none

end Place

end Folio.Yaml
