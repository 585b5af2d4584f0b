import Folio.Document
import Folio.Json.Shape
import Folio.Page.Settings
import Folio.Time

set_option autoImplicit false

/-!
# Pages

A page as the editor stores it: its content and its settings are kept as they were written.
-/
namespace Folio

structure Page where
  id : Int
  slug : Text
  title : Text
  content : Json
  headerId : Option Int
  footerId : Option Int
  settings : Json
  published : Bool
  isTemplate : Bool
  updated : Option Timestamp
deriving Repr

namespace Page

def document [Json.Codec] (p : Page) : Document := Document.ofContent p.content

def isPublic (p : Page) : Bool := p.published && !p.isTemplate

def fieldNames : List Text :=
  ["id", "slug", "title", "contentJson", "headerTemplateId", "footerTemplateId", "settings",
   "published", "isTemplate", "updatedAt"]

def shape : Json.Shape := .record (fieldNames.map fun name => (name, .value))

def timestamp? (value : Json) : Option Timestamp := value.string?.bind Timestamp.read?

def ofJson? (value : Json) : Option Page := do
  let fields ← value.record? fieldNames
  let id ← fields.read? Json.integer? 0 "id"
  let slug ← fields.read? Json.string? [] "slug"
  let title ← fields.read? Json.string? [] "title"
  let content ← fields.read? some .null "contentJson"
  let headerId ← fields.read? (Json.nullable? Json.integer?) none "headerTemplateId"
  let footerId ← fields.read? (Json.nullable? Json.integer?) none "footerTemplateId"
  let settings ← fields.read? some .null "settings"
  let published ← fields.read? Json.bool? false "published"
  let isTemplate ← fields.read? Json.bool? false "isTemplate"
  let updated ← fields.read? (Json.nullable? timestamp?) none "updatedAt"
  some ⟨id, slug, title, content, headerId, footerId, settings, published, isTemplate, updated⟩

def toJson (p : Page) : Json :=
  Json.ofFields [("id", Json.ofInt p.id), ("slug", .string p.slug), ("title", .string p.title),
    ("contentJson", p.content), ("headerTemplateId", Json.ofOption Json.ofInt p.headerId),
    ("footerTemplateId", Json.ofOption Json.ofInt p.footerId), ("settings", p.settings),
    ("published", .bool p.published), ("isTemplate", .bool p.isTemplate),
    ("updatedAt", Json.ofOption (fun t => .string t.write) p.updated)]

end Page

end Folio
