import Folio.Document
import Folio.Json.Shape

set_option autoImplicit false

/-!
# Templates

A header, a footer or a not-found document that is edited on its own. A catalog answers which template
a page gets: the one it chose, if that is there and of the right kind, or else the published one of the
kind, and of several published ones that with the least id.
-/
namespace Folio

inductive TemplateKind where
  | header
  | footer
  | notFound
  | custom
deriving DecidableEq, Repr

namespace TemplateKind

def name : TemplateKind → Text
  | header => "header"
  | footer => "footer"
  | notFound => "notfound"
  | custom => "custom"

def names : List (Text × TemplateKind) :=
  [("header", header), ("footer", footer), ("notfound", notFound), ("not_found", notFound),
   ("404", notFound), ("custom", custom)]

def ofName? (name : Text) : Option TemplateKind := names.lookup name

/-- A name, or an object with the name as its only key and nothing in it. -/
def ofJson? : Json → Option TemplateKind
  | .string name => ofName? name
  | .object [(name, .null)] => ofName? name
  | _ => none

end TemplateKind

structure Template where
  id : Int
  name : Text
  kind : TemplateKind
  content : Json
  published : Bool
deriving Repr

namespace Template

def document [Json.Codec] (t : Template) : Document := Document.ofContent t.content

def shape : Json.Shape :=
  .record [("id", .value), ("name", .value), ("templateType", .asWritten), ("contentJson", .value),
    ("published", .value)]

def fieldNames : List Text := ["id", "name", "templateType", "contentJson", "published"]

def ofJson? (value : Json) : Option Template := do
  let fields ← value.record? fieldNames
  let id ← fields.require? Json.integer? "id"
  let name ← fields.read? Json.string? [] "name"
  let kind ← fields.require? TemplateKind.ofJson? "templateType"
  let content ← fields.read? some .null "contentJson"
  let published ← fields.read? Json.bool? false "published"
  some ⟨id, name, kind, content, published⟩

def toJson (t : Template) : Json :=
  Json.ofFields [("id", Json.ofInt t.id), ("name", .string t.name),
    ("templateType", .string t.kind.name), ("contentJson", t.content),
    ("published", .bool t.published)]

end Template

structure Catalog where
  templates : List Template

namespace Catalog

def empty : Catalog := ⟨[]⟩

/-- The template with the least id, the first of several. -/
def least? : List Template → Option Template
  | [] => none
  | t :: ts =>
    match least? ts with
    | none => some t
    | some u => if t.id ≤ u.id then some t else some u

def byId? (c : Catalog) (id : Int) : Option Template := c.templates.find? fun t => t.id = id

def isPublished (kind : TemplateKind) (t : Template) : Bool := t.published && t.kind = kind

def published? (c : Catalog) (kind : TemplateKind) : Option Template :=
  least? (c.templates.filter (isPublished kind))

def resolve? (c : Catalog) (choice : Option Int) (kind : TemplateKind) : Option Template :=
  ((choice.bind c.byId?).filter fun t => t.kind = kind).or (c.published? kind)

end Catalog

end Folio
