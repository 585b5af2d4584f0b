import Folio.Document
import Folio.Render.Component
import Folio.Style.Layers

set_option autoImplicit false

/-!
# Rendering a document

The walk starts at the root and renders every node at most once: a node that is hidden, missing,
already visited or too deep renders to nothing, and so does one of an unknown kind without content.
A node that renders to nothing has no rules either, nor have the nodes below it.
-/
namespace Folio.Render

/-- Elements and the style sheet entries they need, in the order of the document. -/
structure Fragment where
  html : Text
  entries : List Style.Entry
deriving DecidableEq, Repr

namespace Fragment

def empty : Fragment := ⟨[], []⟩

def isEmpty (f : Fragment) : Bool := f.html.isEmpty

def append (f g : Fragment) : Fragment := ⟨f.html ++ g.html, f.entries ++ g.entries⟩

def concat (l : List Fragment) : Fragment :=
  ⟨l.flatMap Fragment.html, l.flatMap Fragment.entries⟩

def css (f : Fragment) : List Text := f.entries.map Style.Entry.write

def sheet (f : Fragment) : Text := Text.join "\n" f.css

end Fragment

def maxDepth : Nat := 256

/-- The taken element ids, and the nodes of the document that have been visited. -/
structure WalkState where
  registry : Registry
  visited : List Text
deriving DecidableEq, Repr

/-- The markup of a node around that of its children; none for an unknown kind without content. -/
def drawn [Link.HostReader] (n : Node) (id children : Text) : Text :=
  match Component.ofTag? n.typeTag with
  | some kind => (component kind id n.props children).write
  | none => if children.isEmpty then [] else (generic id n.typeTag children).write

def ownEntries (n : Node) (id : Text) : List Style.Entry :=
  let base := match Component.ofTag? n.typeTag with
    | some kind => defaults kind n.props
    | none => []
  ((Style.Layers.ofProps n.props).withDefaults base).entries id

def assemble [Link.HostReader] (n : Node) (id : Text) (children : Fragment) : Fragment :=
  let html := drawn n id children.html
  if html.isEmpty then Fragment.empty else ⟨html, ownEntries n id ++ children.entries⟩

def visitAll (visit : Text → WalkState → Fragment × WalkState) :
    List Text → WalkState → Fragment × WalkState
  | [], s => (Fragment.empty, s)
  | id :: ids, s =>
    let (f, s) := visit id s
    let (g, s) := visitAll visit ids s
    (f.append g, s)

/-- Visits a node with at most `levels` levels of nodes from it down. -/
def visit [Link.HostReader] (d : Document) (scope : Scope) :
    Nat → Text → WalkState → Fragment × WalkState
  | 0, _, s => (Fragment.empty, s)
  | levels + 1, nodeId, s =>
    match d.get? nodeId with
    | none => (Fragment.empty, s)
    | some n =>
      if n.hidden || s.visited.contains nodeId then (Fragment.empty, s)
      else
        let (id, registry) := s.registry.assign scope nodeId n.props
        let (children, s) :=
          visitAll (visit d scope levels) n.allChildren ⟨registry, nodeId :: s.visited⟩
        (assemble n id children, s)

def renderNode [Link.HostReader] (d : Document) (scope : Scope) (nodeId : Text) (s : WalkState) :
    Fragment × WalkState :=
  visit d scope (maxDepth + 1) nodeId s

def renderDocument [Link.HostReader] (d : Document) (scope : Scope) (r : Registry) :
    Fragment × Registry :=
  let (f, s) := renderNode d scope Document.rootId ⟨r, []⟩
  (f, s.registry)

def render [Link.HostReader] (d : Document) : Fragment := (renderDocument d .page Registry.empty).1

def renderText [Json.Codec] [Link.HostReader] (s : Text) : Except DocumentError Fragment :=
  (Document.parse s).map render

end Folio.Render
