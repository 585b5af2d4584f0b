import Folio.Yaml.Basic
import Folio.Yaml.Place

set_option autoImplicit false

/-!
# Scanning YAML scalars

A scalar may run over several lines. A single line feed between its words becomes a space, and of
several the first is dropped; the separators of lines and paragraphs stay as they are. White space
around a line break does not count. A plain scalar ends at a comment, at a colon before white space, and
where a line is indented less than it has to be; inside brackets also at a comma or a bracket.
-/
namespace Folio.Yaml

structure Scanned where
  text : Text
  place : Place
  /-- Whether a line has ended since its last character. -/
  ended : Bool

namespace Scanned

def prepend (s : Text) (r : Scanned) : Scanned := { r with text := s ++ r.text }

end Scanned

/-- Line breaks that follow each other: the one that ends a line, unless it does not count, and those
    of the empty lines after it. -/
structure Breaks where
  first : Option Char
  more : Text

namespace Breaks

def none : Breaks := ⟨.none, []⟩

def kept (b : Breaks) : Text := b.first.toList ++ b.more

def folded (b : Breaks) : Text :=
  if b.first = some '\n' then if b.more.isEmpty then " " else b.more else b.kept

end Breaks

inductive Gap where
  | within (spaces : Text)
  | across (breaks : Breaks)

namespace Gap

def none : Gap := within []

def space (c : Char) : Gap → Gap
  | within spaces => within (spaces ++ [c])
  | across breaks => across breaks

def newline (c : Char) : Gap → Gap
  | within _ => across ⟨some c, []⟩
  | across breaks => across { breaks with more := breaks.more ++ [c] }

def isNone : Gap → Bool
  | within [] => true
  | _ => false

def isAcross : Gap → Bool
  | within _ => false
  | across _ => true

def write : Gap → Text
  | within spaces => spaces
  | across breaks => breaks.folded

end Gap

def startsPlain (flow : Bool) : Text → Bool
  | [] => false
  | c :: s =>
    if c = '-' then !isEnd s
    else if c = '?' || c = ':' then !flow && !isEnd s
    else !isEnd [c] && !isFlowMark c && !("#&*!|>'\"%@\x60" : Text).contains c

def endsPlain (flow : Bool) (indent column : Nat) (gap : Gap) (c : Char) (s : Text) : Bool :=
  (gap.isAcross && !flow && column < indent) || (column = 0 && isMarker (c :: s)) ||
    (c = '#' && !gap.isNone) || (c = ':' && isEnd s) || (flow && isFlowMark c)

def plainFrom? (flow : Bool) (indent : Nat) (gap : Gap) (spot : Spot) : Text → Option Scanned
  | [] => some ⟨[], ⟨spot, []⟩, gap.isAcross⟩
  | c :: s =>
    if isBreak c then plainFrom? flow indent (gap.newline c) (spot.next c) s
    else if isSpace c then
      if c = '\t' && gap.isAcross && spot.column < indent then none
      else plainFrom? flow indent (gap.space c) (spot.next c) s
    else if endsPlain flow indent spot.column gap c s then
      some ⟨[], ⟨spot, c :: s⟩, gap.isAcross⟩
    else if flow && c = ':' && s.head?.any (fun d => d = '?' || isFlowMark d) then none
    else (plainFrom? flow indent .none (spot.next c) s).map (Scanned.prepend (gap.write ++ [c]))

def plain? (flow : Bool) (indent : Nat) (p : Place) : Option Scanned :=
  plainFrom? flow indent .none p.spot p.rest

def escapes : List (Char × Char) :=
  [('0', '\x00'), ('a', '\x07'), ('b', '\x08'), ('t', '\t'), ('\t', '\t'), ('n', '\n'),
   ('v', '\x0b'), ('f', '\x0c'), ('r', '\r'), ('e', '\x1b'), (' ', ' '), ('"', '"'), ('/', '/'),
   ('\\', '\\'), ('N', '\u0085'), ('_', '\u00a0'), ('L', '\u2028'), ('P', '\u2029')]

def widths : List (Char × Nat) := [('x', 2), ('u', 4), ('U', 8)]

def escape? : Text → Option (Char × Text)
  | [] => none
  | c :: s =>
    match escapes.lookup c, widths.lookup c with
    | some e, _ => some (e, s)
    | none, some width =>
      match digits? 16 (s.take width) with
      | some n =>
        if width ≤ s.length && n.isValidChar then some (Char.ofNat n, s.drop width) else none
      | none => none
    | none, none => none

/-- A scalar in double quotes, or in single ones, past its first quote. Each step takes at least one
    character. -/
def quotedFrom? (double : Bool) : Nat → Gap → Place → Option Scanned
  | 0, _, _ => none
  | _, _, ⟨_, []⟩ => none
  | fuel + 1, gap, ⟨spot, c :: s⟩ =>
    let read (t : Text) (p : Place) : Option Scanned :=
      (quotedFrom? double fuel .none p).map (Scanned.prepend (gap.write ++ t))
    let next : Place := ⟨spot.next c, s⟩
    if isBreak c then quotedFrom? double fuel (gap.newline c) next
    else if isSpace c then quotedFrom? double fuel (gap.space c) next
    else if spot.column = 0 && isMarker (c :: s) then none
    else if double && c = '"' then some ⟨gap.write, next, false⟩
    else if double && c = '\\' then
      match s with
      | [] => none
      | d :: s =>
        if isBreak d then
          (quotedFrom? double fuel (.across .none) ⟨spot.nextLine, s⟩).map
            (Scanned.prepend gap.write)
        else (escape? (d :: s)).bind fun (e, rest) => read [e] (next.upTo rest)
    else if !double && c = '\'' then
      match s with
      | '\'' :: s => read ['\''] (next.after 1 s)
      | _ => some ⟨gap.write, next, false⟩
    else read [c] next

def quoted? (double : Bool) (p : Place) : Option Scanned :=
  quotedFrom? double (p.rest.length + 1) .none p

end Folio.Yaml
