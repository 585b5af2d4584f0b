import Folio.Page.Compose
import Folio.Route
import Folio.Server.Store

set_option autoImplicit false

/-!
# Responses

The answer to a path is put together from what the store says: a page with its templates, the
not-found page, the robots file or the sitemap. Where the store fails the answer is a server error, and
where it does not answer at all the service is unavailable.
-/
namespace Folio

structure Response where
  status : Nat
  contentType : Option Text
  body : Text
deriving DecidableEq, Repr

namespace Response

def htmlType : Text := "text/html; charset=utf-8"

def plainType : Text := "text/plain; charset=utf-8"

def xmlType : Text := "application/xml"

def html (status : Nat) (body : Text) : Response := ⟨status, some htmlType, body⟩

def plain (status : Nat) (body : Text) : Response := ⟨status, some plainType, body⟩

def ofTrouble : Trouble → Response
  | .failed _ | .database => plain 500 "Internal Server Error"
  | .stalled => plain 503 "Service Unavailable"

/-- The published template of a kind, unless the templates at hand hold the one that was chosen. -/
def missing (store : Store) (templates : List Template) (choice : Option Int) (kind : TemplateKind) :
    Except Trouble (List Template) :=
  let chosen := choice.any fun id => templates.any fun t => t.id = id && t.kind = kind
  if chosen then .ok [] else (store.publishedTemplate kind).map Option.toList

def templatesFor (store : Store) (page : Page) : Except Trouble (List Template) := do
  let chosen ← store.templates (page.headerId.toList ++ page.footerId.toList)
  let header ← missing store chosen page.headerId .header
  let footer ← missing store (chosen ++ header) page.footerId .footer
  return chosen ++ header ++ footer

def notFound [Json.Codec] [Link.HostReader] (store : Store) (site : Site) :
    Except Trouble Response := do
  let main ← store.publishedTemplate .notFound
  let header ← store.publishedTemplate .header
  let footer ← store.publishedTemplate .footer
  return html 404 (Compose.notFound site ⟨main.toList ++ header.toList ++ footer.toList⟩)

def page [Json.Codec] [Link.HostReader] (store : Store) (site : Site) (slug : Text) :
    Except Trouble Response := do
  match ← store.page slug with
  | none => notFound store site
  | some page =>
    let templates ← templatesFor store page
    return html 200 (Compose.page page site ⟨templates⟩)

def ofRoute [Json.Codec] [Link.HostReader] (store : Store) (route : Route) :
    Except Trouble Response := do
  let site ← store.site
  match route with
  | .robots => return plain 200 site.robotsFile
  | .sitemap => return ⟨200, some xmlType, Sitemap.write site (← store.entries)⟩
  | .home => page store site site.homepage
  | .slug slug => page store site slug
  | .notFound => notFound store site

def ofPath [Json.Codec] [Link.HostReader] (store : Store) (path : Text) : Response :=
  match ofRoute store (Route.ofPath path) with
  | .ok response => response
  | .error trouble => ofTrouble trouble

def beforeQuery (s : Text) : Text := s.takeWhile fun c => c ≠ '?' && c ≠ '#'

def pathOf (target : Text) : Text :=
  if Text.startsWith "/" target then beforeQuery target
  else
    match Text.cut? "://" (beforeQuery target) with
    | some (_, rest) =>
      let path := rest.dropWhile fun c => c ≠ '/'
      if path.isEmpty then "/" else path
    | none => target

/-- The answer to a request. Only reading is allowed, and `HEAD` asks for no body. A target that is
    not a path leads nowhere. -/
def ofRequest [Json.Codec] [Link.HostReader] (store : Store) (method target : Text) : Response :=
  let path := pathOf target
  if !Text.startsWith "/" path then ⟨404, none, []⟩
  else if method = "GET" then ofPath store path
  else if method = "HEAD" then { ofPath store path with body := [] }
  else ⟨405, none, []⟩

end Response

end Folio
