import Folio.Sitemap
import Folio.Template

set_option autoImplicit false

/-!
# Stores

What a request reads. Each question may be answered, fail, or never be answered. How a store keeps its
content is its own affair; the order of the templates it returns for some ids is not promised.
-/
namespace Folio

/-- Why the content of a store cannot be served, without the words of the JSON reader or the operating
    system, which only a log shows. -/
inductive StoreError where
  | badSnapshot
  | unreadable
deriving DecidableEq, Repr

namespace StoreError

def message : StoreError → Text
  | badSnapshot => "invalid site snapshot"
  | unreadable => "I/O error"

end StoreError

/-- Why a question to a store has no answer: its content cannot be served, its database fails, or the answer
    takes too long. -/
inductive Trouble where
  | failed (e : StoreError)
  | database
  | stalled
deriving DecidableEq, Repr

structure Store where
  site : Except Trouble Site
  /-- The page with a slug that is published and no template. -/
  page : Text → Except Trouble (Option Page)
  /-- The templates with some ids; unknown ids are passed over. -/
  templates : List Int → Except Trouble (List Template)
  publishedTemplate : TemplateKind → Except Trouble (Option Template)
  /-- The pages that are published and no templates, by slug. -/
  entries : Except Trouble (List SitemapEntry)

inductive Question where
  | site
  | page
  | templates
  | publishedTemplate
  | entries
deriving DecidableEq, Repr

def Store.inTrouble (s : Store) (q : Question) (t : Trouble) : Store :=
  match q with
  | .site => { s with site := .error t }
  | .page => { s with page := fun _ => .error t }
  | .templates => { s with templates := fun _ => .error t }
  | .publishedTemplate => { s with publishedTemplate := fun _ => .error t }
  | .entries => { s with entries := .error t }

end Folio
