import Folio.Style.Breakpoint
import Folio.Style.Declaration

set_option autoImplicit false

/-!
# Style layers

The styling of a node is a list of declarations for each breakpoint and each slot: the element itself
or one of its states. `ofProps` collects them, `rules` compiles them to rules for one element id. The
base rule and the state rules hold what the desktop declares; a media block holds what changes at its
breakpoint against the next wider one, so nothing is said twice.
-/
namespace Folio.Style

inductive PseudoState where
  | hover
  | focus
  | focusVisible
  | focusWithin
  | active
deriving DecidableEq, Repr

namespace PseudoState

def parse? (s : Text) : Option PseudoState :=
  if s = "hover" then some hover
  else if s = "focus" then some focus
  else if s = "focusVisible" || s = "focus-visible" || s = "focus_visible" then some focusVisible
  else if s = "focusWithin" || s = "focus-within" || s = "focus_within" then some focusWithin
  else if s = "active" then some active
  else none

def suffix : PseudoState → Text
  | hover => ":hover"
  | focus => ":focus"
  | focusVisible => ":focus-visible"
  | focusWithin => ":focus-within"
  | active => ":active"

def all : List PseudoState := [hover, focus, focusVisible, focusWithin, active]

end PseudoState

inductive Slot where
  | base
  | state (s : PseudoState)
deriving DecidableEq, Repr

namespace Slot

def suffix : Slot → Text
  | base => []
  | state s => s.suffix

def all : List Slot := base :: PseudoState.all.map state

end Slot

abbrev Layer := Slot → List Declaration

def Layer.empty : Layer := fun _ => []

def Layer.set (layer : Layer) (slot : Slot) (ds : List Declaration) : Layer :=
  fun s => if s = slot then ds else layer s

structure Layers where
  layer : Breakpoint → Layer
  custom : Option Text

namespace Layers

/-- Adds the declarations of a state. One without any does not displace another spelling. -/
def addState (layer : Layer) (entry : Text × Json) : Layer :=
  match PseudoState.parse? entry.1 with
  | none => layer
  | some s =>
    let ds := declarations entry.2
    if ds.isEmpty then layer else layer.set (.state s) ds

def addStates (layer : Layer) : Option Json → Layer
  | some (.object states) => states.foldl addState layer
  | _ => layer

def layerOf (bag : Json) : Layer :=
  addStates (Layer.empty.set .base (declarations bag)) (bag.get? "pseudoStateStyling")

def overlayLayer (layer extra : Layer) : Layer := fun s => overlayAll (layer s) (extra s)

def setLayer (all : Breakpoint → Layer) (b : Breakpoint) (layer : Layer) : Breakpoint → Layer :=
  fun c => if c = b then layer else all c

/-- Adds the styling of a breakpoint. The desktop's lies over what the node has already; that of a
    narrower breakpoint replaces any under another spelling. -/
def addBreakpoint (all : Breakpoint → Layer) (entry : Text × Json) : Breakpoint → Layer :=
  match Breakpoint.parse? entry.1 with
  | none => all
  | some .desktop => setLayer all .desktop (overlayLayer (all .desktop) (layerOf entry.2))
  | some b => setLayer all b (layerOf entry.2)

def breakpointEntries (props : Json.Fields) : Json.Fields :=
  ((Json.Fields.get? props "breakpointStyling").bind Json.object?).getD []

/-- Whether the node is styled by bags; then its flat keys do not count. -/
def usesBags (props : Json.Fields) : Bool :=
  hasAnyKeySet (Json.Fields.get? props "advancedStyling") ||
    (breakpointEntries props).any fun (name, bag) =>
      Breakpoint.parse? name = some .desktop && !(declarations bag).isEmpty

def customOf (props : Json.Fields) : Option Text :=
  let written :=
    (["customCSS", "customCss"] : List Text).findSome? fun k =>
      (Json.Fields.get? props k).bind Json.string?
  (written.map fun css => Text.trim (neutralizeClose (strip css))).filter fun css => !css.isEmpty

def ownLayer (props : Json.Fields) : Layer :=
  addStates
    (Layer.empty.set .base (declarations ((Json.Fields.get? props "advancedStyling").getD .null)))
    (Json.Fields.get? props "pseudoStateStyling")

def ofProps (props : Json.Fields) : Layers :=
  let start := setLayer (fun _ => Layer.empty) .desktop (ownLayer props)
  let collected := (breakpointEntries props).foldl addBreakpoint start
  let all :=
    if usesBags props then collected
    else setLayer collected .desktop ((collected .desktop).set .base (flatDeclarations props))
  ⟨all, customOf props⟩

/-- Puts defaults before the base declarations, except where those have the property. -/
def withDefaults (layers : Layers) (defaults : List Declaration) : Layers :=
  let base := layers.layer .desktop .base
  let missing := defaults.filter fun d => (valueOf? base d.property).isNone
  { layers with
    layer := setLayer layers.layer .desktop ((layers.layer .desktop).set .base (missing ++ base)) }

def valueAt (layers : Layers) (slot : Slot) (property : Text) : Responsive (Option Text) :=
  Breakpoint.narrow.foldl
    (fun v b =>
      match valueOf? (layers.layer b slot) property with
      | some value => v.set b (some value)
      | none => v)
    (Responsive.constant (valueOf? (layers.layer .desktop slot) property))

def distinct : List Text → List Text
  | [] => []
  | a :: rest => a :: (distinct rest).filter fun b => b ≠ a

def narrowProperties (layers : Layers) (slot : Slot) : List Text :=
  distinct (Breakpoint.narrow.flatMap fun b => (layers.layer b slot).map Declaration.property)

/-- The declarations of a slot whose value at a breakpoint is not the one in force just before. -/
def changedAt (layers : Layers) (b : Breakpoint) (slot : Slot) : List Declaration :=
  (layers.narrowProperties slot).filterMap fun property =>
    let v := layers.valueAt slot property
    match v.resolve b with
    | some value =>
      if v.resolve (b.wider?.getD .desktop) = some value then none else some ⟨property, value⟩
    | none => none

end Layers

structure Rule where
  element : Text
  slot : Slot
  declarations : List Declaration
deriving DecidableEq, Repr

inductive Entry where
  | rule (r : Rule)
  | media (b : Breakpoint) (rules : List Rule)
  | custom (css : Text)
deriving DecidableEq, Repr

namespace Rule

def selector (r : Rule) : Text := '#' :: r.element ++ r.slot.suffix

def writeDeclaration (d : Declaration) : Text := ' ' :: d.property ++ ": " ++ d.value ++ ";"

def write (r : Rule) : Text :=
  r.selector ++ ' ' :: '{' :: r.declarations.flatMap writeDeclaration ++ [' ', '}']

end Rule

namespace Entry

def write : Entry → Text
  | rule r => r.write
  | media b rules =>
    b.mediaQuery?.getD [] ++ [' ', '{', '\n'] ++
      Text.join "\n" (rules.map fun r => "  " ++ r.write) ++ ['\n', '}']
  | custom css => css

end Entry

namespace Layers

def rulesOf (element : Text) (declared : Slot → List Declaration) : List Rule :=
  Slot.all.filterMap fun slot =>
    let ds := declared slot
    if ds.isEmpty then none else some ⟨element, slot, ds⟩

def mediaOf (layers : Layers) (element : Text) (b : Breakpoint) : Option Entry :=
  let rules := rulesOf element (layers.changedAt b)
  if rules.isEmpty then none else some (.media b rules)

def entries (layers : Layers) (element : Text) : List Entry :=
  (rulesOf element (layers.layer .desktop)).map .rule ++
    Breakpoint.narrow.filterMap (layers.mediaOf element) ++
    layers.custom.toList.map .custom

def compile (layers : Layers) (element : Text) : List Text := (layers.entries element).map Entry.write

end Layers

def elementSheet (element : Text) (props : Json.Fields) : Text :=
  Text.join "\n" ((Layers.ofProps props).compile element)

end Folio.Style
