import Folio.Yaml.Scalar

set_option autoImplicit false

/-!
# Block scalars

The lines of a scalar that are indented below its mark. A literal one keeps its line breaks; a folded
one joins two lines with a space unless one of them starts with white space. The mark may say how deep
the lines are indented and what becomes of the line breaks at the end; otherwise the first line that is
not empty gives the indentation, and one line break is kept.
-/
namespace Folio.Yaml.Block

/-- What becomes of the line breaks at the end. -/
inductive Chomp where
  | strip
  | clip
  | keep
deriving DecidableEq, Repr

def Chomp.write : Chomp → Breaks → Text
  | strip, _ => []
  | clip, b => b.first.toList
  | keep, b => b.kept

def chomp? : Text → Option (Chomp × Text)
  | '+' :: s => some (.keep, s)
  | '-' :: s => some (.strip, s)
  | _ => none

def depth? : Text → Option (Nat × Text)
  | c :: s => if c.isDigit && c ≠ '0' then some (digitValue c, s) else none
  | [] => none

def indicators (s : Text) : Chomp × Option Nat × Text :=
  match chomp? s, depth? s with
  | some (chomp, s), _ =>
    match depth? s with
    | some (depth, s) => (chomp, some depth, s)
    | none => (chomp, none, s)
  | none, some (depth, s) =>
    match chomp? s with
    | some (chomp, s) => (chomp, some depth, s)
    | none => (.clip, some depth, s)
  | none, none => (.clip, none, s)

structure Margin where
  /-- The breaks of the empty lines. -/
  empty : Text
  /-- The greatest column on the way. -/
  widest : Nat
  place : Place

def margin? (indent : Option Nat) (empty : Text) (widest : Nat) (spot : Spot) : Text → Option Margin
  | [] => some ⟨empty, max widest spot.column, ⟨spot, []⟩⟩
  | c :: s =>
    let inside := indent.all (spot.column < ·)
    if c = ' ' && inside then margin? indent empty widest (spot.next c) s
    else if c = '\t' && inside then none
    else if isBreak c then margin? indent (empty ++ [c]) (max widest spot.column) (spot.next c) s
    else some ⟨empty, max widest spot.column, ⟨spot, c :: s⟩⟩

/-- The lines from a margin on, the breaks after the last, and the place after them. `blank` says
    whether the line before starts with white space, and `first` how it ends. -/
def lines? (literal : Bool) (indent : Nat) :
    Nat → Bool → Option Char → Margin → Option (Text × Breaks × Place)
  | 0, _, _, _ => none
  | fuel + 1, blank, first, m =>
    let before : Breaks := ⟨first, m.empty⟩
    let s := m.place.rest
    if s.isEmpty || m.place.spot.column ≠ indent then some ([], before, m.place)
    else
      let starts := s.head?.any isSpace
      let gap := if literal || blank || starts then before.kept else before.folded
      let line := s.takeWhile fun c => !isBreak c
      let spot := m.place.spot.nextLine
      match s.dropWhile fun c => !isBreak c with
      | [] => some (gap ++ line, .none, ⟨spot, []⟩)
      | c :: s => do
        let m ← margin? (some indent) [] 0 spot s
        let (t, last, p) ← lines? literal indent fuel starts (some c) m
        some (gap ++ line ++ t, last, p)

/-- A block scalar from the place after its mark. Its lines have at least an indentation, and a depth
    that the mark gives counts from the column before that. -/
def scalar? (literal : Bool) (indent : Nat) (p : Place) : Option Scanned := do
  let (chomp, depth, s) := indicators p.rest
  let s ← Place.endLine? s
  let given := depth.map (indent - 1 + ·)
  let m ← margin? given [] 0 p.spot.nextLine s
  let indent := given.getD (max m.widest (max indent 1))
  let (t, last, p) ← lines? literal indent (s.length + 1) false none m
  some ⟨t ++ chomp.write last, p, true⟩

end Folio.Yaml.Block
