import Folio.Page
import Folio.Template

set_option autoImplicit false

/-!
# Rows

Pages and templates as a database holds them. A row of a page always says when it was updated, and a
row of a template names its kind by a text, which may be one that is not known.
-/
namespace Folio

structure PageRow where
  id : Int
  slug : Text
  title : Text
  content : Json
  headerId : Option Int
  footerId : Option Int
  settings : Json
  published : Bool
  isTemplate : Bool
  updated : Timestamp
deriving Repr

def PageRow.toPage (r : PageRow) : Page where
  id := r.id
  slug := r.slug
  title := r.title
  content := r.content
  headerId := r.headerId
  footerId := r.footerId
  settings := r.settings
  published := r.published
  isTemplate := r.isTemplate
  updated := some r.updated

structure TemplateRow where
  id : Int
  name : Text
  kind : Text
  content : Json
  published : Bool
deriving Repr

/-- The template of a row; none for a kind that is not known. -/
def TemplateRow.toTemplate? (r : TemplateRow) : Option Template :=
  (TemplateKind.ofName? r.kind).map fun kind => ⟨r.id, r.name, kind, r.content, r.published⟩

end Folio
