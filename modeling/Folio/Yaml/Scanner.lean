import Folio.Yaml.Block
import Folio.Yaml.Mark

set_option autoImplicit false

/-!
# Scanning YAML

A text becomes its tokens. Collections by indentation start at a token right of the innermost open one
and end at the first token left of their own column. A key is known by its colon, which has to follow on
the same line and within 1024 bytes, so a place where a key may have started is kept until then; where
one has to start, because a line of a collection starts there, the colon may not be missing. What reads
a token is given the text after its first character.
-/
namespace Folio.Yaml

structure Candidate where
  spot : Spot
  /-- The number of tokens before it. -/
  position : Nat
  /-- Whether nothing but a key can start there. -/
  required : Bool

namespace Candidate

def isLate (now : Spot) (c : Candidate) : Bool :=
  c.spot.line ≠ now.line || c.spot.offset + 1024 < now.offset

end Candidate

structure Scanner where
  place : Place
  /-- The tokens so far, the latest first. -/
  tokens : List Token
  /-- The columns of the open collections by indentation, the innermost first. -/
  columns : List Nat
  /-- Where a key may have started since the innermost bracket. -/
  candidate : Option Candidate
  /-- Where one may have started before each open bracket, the innermost first. -/
  outer : List (Option Candidate)
  /-- Whether a key may start at the next token. -/
  keys : Bool
  /-- The numbers of the anchors so far. -/
  anchors : List (Text × Nat)

namespace Scanner

def start (s : Text) : Scanner where
  place := ⟨.start, s⟩
  tokens := []
  columns := []
  candidate := none
  outer := []
  keys := true
  anchors := []

def flow (s : Scanner) : Bool := !s.outer.isEmpty

/-- The least column of what belongs to the innermost collection by indentation. -/
def indent (s : Scanner) : Nat :=
  match s.columns with
  | [] => 0
  | column :: _ => column + 1

def emit (t : Token) (s : Scanner) : Scanner := { s with tokens := t :: s.tokens }

def skip (n : Nat) (rest : Text) (s : Scanner) : Scanner := { s with place := s.place.after n rest }

def skipTo (rest : Text) (s : Scanner) : Scanner := { s with place := s.place.upTo rest }

def allowKeys (keys : Bool) (s : Scanner) : Scanner := { s with keys }

def closeColumns (bound : Nat) : List Nat → List Token → List Nat × List Token
  | [], ts => ([], ts)
  | column :: columns, ts =>
    if bound ≤ column then closeColumns bound columns (.blockEnd :: ts) else (column :: columns, ts)

def closeFrom (bound : Nat) (s : Scanner) : Scanner :=
  if s.flow then s
  else
    let (columns, tokens) := closeColumns bound s.columns s.tokens
    { s with columns, tokens }

/-- Tokens, the latest first, with one more put in after as many of them as stood before it. -/
def insertAt (position : Nat) (t : Token) (tokens : List Token) : List Token :=
  let later := tokens.length - position
  tokens.take later ++ t :: tokens.drop later

def openAt (column position : Nat) (t : Token) (s : Scanner) : Scanner :=
  if s.flow || column < s.indent then s
  else { s with columns := column :: s.columns, tokens := insertAt position t s.tokens }

def openHere (t : Token) (s : Scanner) : Scanner :=
  s.openAt s.place.spot.column s.tokens.length t

/-- A candidate that still can be a key, if it has to be one. -/
def keepCandidate? (now : Spot) : Option Candidate → Option (Option Candidate)
  | none => some none
  | some c => if !c.isLate now then some (some c) else if c.required then none else some none

def forgetLate? (s : Scanner) : Option Scanner := do
  let candidate ← keepCandidate? s.place.spot s.candidate
  let outer ← s.outer.mapM (keepCandidate? s.place.spot)
  some { s with candidate, outer }

def forget? (s : Scanner) : Option Scanner :=
  if s.candidate.any Candidate.required then none else some { s with candidate := none }

def mayStartKey? (s : Scanner) : Option Scanner :=
  if s.keys then
    let spot := s.place.spot
    let candidate : Candidate := ⟨spot, s.tokens.length, !s.flow && s.columns.head? = some spot.column⟩
    s.forget?.map fun s => { s with candidate := some candidate }
  else some s

/-- Before a token that is in no collection by indentation, all of these end. -/
def outermost? (s : Scanner) : Option Scanner := (s.closeFrom 0).forget?.map (allowKeys false)

def directive? (rest : Text) (s : Scanner) : Option Scanner := do
  let s ← s.outermost?
  let (t, rest) ← Yaml.directive? rest
  some { s.emit t with place := ⟨s.place.spot.nextLine, rest⟩ }

def marker? (t : Token) (rest : Text) (s : Scanner) : Option Scanner :=
  s.outermost?.map fun s => (s.emit t).skip 3 rest

def openBracket? (t : Token) (rest : Text) (s : Scanner) : Option Scanner :=
  s.mayStartKey?.map fun s =>
    ({ s.emit t with candidate := none, outer := s.candidate :: s.outer, keys := true } : Scanner).skip 1
      rest

def closeBracket? (t : Token) (rest : Text) (s : Scanner) : Option Scanner :=
  s.forget?.map fun s =>
    let s := ((s.emit t).allowKeys false).skip 1 rest
    match s.outer with
    | [] => s
    | candidate :: outer => { s with candidate, outer }

def comma? (rest : Text) (s : Scanner) : Option Scanner :=
  s.forget?.map fun s => ((s.emit .comma).allowKeys true).skip 1 rest

def item? (rest : Text) (s : Scanner) : Option Scanner :=
  if s.flow || s.keys then
    (s.openHere .sequenceStart).forget?.map fun s => ((s.emit .item).allowKeys true).skip 1 rest
  else none

def key? (rest : Text) (s : Scanner) : Option Scanner :=
  if s.flow || s.keys then
    (s.openHere .mappingStart).forget?.map fun s => ((s.emit .key).allowKeys (!s.flow)).skip 1 rest
  else none

/-- A colon makes a key of the candidate; without one it starts the value of a key that has its token. -/
def value? (rest : Text) (s : Scanner) : Option Scanner :=
  let read (s : Scanner) : Scanner := (s.emit .value).skip 1 rest
  match s.candidate with
  | some c =>
    let s := { s with tokens := insertAt c.position .key s.tokens, candidate := none, keys := false }
    some (read (s.openAt c.spot.column c.position .mappingStart))
  | none =>
    if s.flow || s.keys then some (read ((s.openHere .mappingStart).allowKeys (!s.flow))) else none

/-- An anchor gets the number of names so far, its own included if it has stood before; so a name that
    stands twice shares its new number with the next new name. -/
def anchor? (rest : Text) (s : Scanner) : Option Scanner := do
  let s ← s.mayStartKey?
  let (name, rest) ← name? rest
  let number := s.anchors.length
  let anchors := (name, number) :: s.anchors.filter fun (other, _) => other ≠ name
  some (({ s with anchors }.emit (.anchor number)).allowKeys false |>.skipTo rest)

def reference? (rest : Text) (s : Scanner) : Option Scanner := do
  let s ← s.mayStartKey?
  let (name, rest) ← name? rest
  let number ← s.anchors.lookup name
  some ((s.emit (.reference number)).allowKeys false |>.skipTo rest)

def tag? (rest : Text) (s : Scanner) : Option Scanner := do
  let s ← s.mayStartKey?
  let (tag, rest) ← Yaml.tag? s.flow rest
  some ((s.emit (.tag tag)).allowKeys false |>.skipTo rest)

def scalar (style : ScalarStyle) (r : Scanned) (s : Scanner) : Scanner :=
  { s.emit (.scalar style r.text) with place := r.place, keys := r.ended }

def quoted? (double : Bool) (rest : Text) (s : Scanner) : Option Scanner := do
  let s ← s.mayStartKey?
  let r ← Yaml.quoted? double (s.place.after 1 rest)
  some (s.scalar .quoted r)

def block? (literal : Bool) (rest : Text) (s : Scanner) : Option Scanner := do
  let s ← s.forget?
  let r ← Block.scalar? literal s.indent (s.place.after 1 rest)
  some (s.scalar (if literal then .literal else .folded) r)

def plain? (s : Scanner) : Option Scanner := do
  let s ← s.mayStartKey?
  let r ← Yaml.plain? s.flow s.indent s.place
  some (s.scalar .plain r)

def token? (c : Char) (rest : Text) (s : Scanner) : Option Scanner :=
  let first := s.place.spot.column = 0
  if first && c = '%' then s.directive? rest
  else if first && isMarker (c :: rest) then
    s.marker? (if c = '-' then .documentStart else .documentEnd) (rest.drop 2)
  else if c = '[' then s.openBracket? .openSequence rest
  else if c = '{' then s.openBracket? .openMapping rest
  else if c = ']' then s.closeBracket? .closeSequence rest
  else if c = '}' then s.closeBracket? .closeMapping rest
  else if c = ',' then s.comma? rest
  else if c = '-' && isEnd rest then s.item? rest
  else if c = '?' && (s.flow || isEnd rest) then s.key? rest
  else if c = ':' && (s.flow || isEnd rest) then s.value? rest
  else if c = '*' then s.reference? rest
  else if c = '&' then s.anchor? rest
  else if c = '!' then s.tag? rest
  else if (c = '|' || c = '>') && !s.flow then s.block? (c = '|') rest
  else if c = '"' || c = '\'' then s.quoted? (c = '"') rest
  else if startsPlain s.flow (c :: rest) then s.plain?
  else none

def ready? (s : Scanner) : Option Scanner :=
  let (place, keys) := s.place.pass s.flow s.keys
  forgetLate? { s with place, keys } |>.map fun s => s.closeFrom (place.spot.column + 1)

def tokensFrom? : Nat → Scanner → Option (List Token)
  | 0, _ => none
  | fuel + 1, s => do
    let s ← s.ready?
    match s.place.rest with
    | [] => s.outermost?.map fun s => s.tokens.reverse
    | c :: rest => (s.token? c rest).bind (tokensFrom? fuel)

end Scanner

def tokens? (s : Text) : Option (List Token) := Scanner.tokensFrom? (s.length + 1) (.start s)

end Folio.Yaml
