import Folio.Yaml.Basic

set_option autoImplicit false

/-!
# YAML nodes

A node as it is written: it may have an anchor, and a reference stands for the node that has its anchor.
Where several nodes have one anchor the last of them counts, even before it. Nothing is read through a
reference to a collection, so it counts as an empty one.
-/
namespace Folio.Yaml

inductive Node where
  | reference (anchor : Nat)
  | scalar (style : ScalarStyle) (tag : Option Text) (text : Text)
  | sequence (items : List Node)
  | mapping (entries : List (Node × Node))
  | anchored (number : Nat) (node : Node)
deriving Repr

namespace Node

def null : Node := scalar .plain none []

def outline : Node → Yaml
  | reference _ => .sequence []
  | scalar style tag s => .scalar style tag s
  | sequence _ => .sequence []
  | mapping _ => .mapping []
  | anchored _ n => outline n

/-- What references stand for, by the numbers of their anchors, the latest first. -/
abbrev Targets := List (Nat × Yaml)

mutual

def targets : Node → Targets → Targets
  | reference _, known => known
  | scalar _ _ _, known => known
  | sequence items, known => targetsOfItems items known
  | mapping entries, known => targetsOfEntries entries known
  | anchored number n, known => targets n ((number, n.outline) :: known)

def targetsOfItems : List Node → Targets → Targets
  | [], known => known
  | n :: ns, known => targetsOfItems ns (targets n known)

def targetsOfEntries : List (Node × Node) → Targets → Targets
  | [], known => known
  | (k, n) :: ns, known => targetsOfEntries ns (targets n (targets k known))

end

mutual

def value (known : Targets) : Node → Yaml
  | reference anchor => (known.lookup anchor).getD (.sequence [])
  | scalar style tag s => .scalar style tag s
  | sequence items => .sequence (valueOfItems known items)
  | mapping entries => .mapping (valueOfEntries known entries)
  | anchored _ n => value known n

def valueOfItems (known : Targets) : List Node → List Yaml
  | [] => []
  | n :: ns => value known n :: valueOfItems known ns

def valueOfEntries (known : Targets) : List (Node × Node) → List (Yaml × Yaml)
  | [] => []
  | (k, n) :: ns => (value known k, value known n) :: valueOfEntries known ns

end

end Node

end Folio.Yaml
