import Folio.Text.Basic

set_option autoImplicit false

/-!
# Routes

What a request path asks for. A page is named by a single segment; one slash before it and one after
it do not count.
-/
namespace Folio

inductive Route where
  | home
  | slug (s : Text)
  | robots
  | sitemap
  | notFound
deriving DecidableEq, Repr

namespace Route

def dropSlash (s : Text) : Text := (Text.dropStart? "/" s).getD s

def dropLastSlash (s : Text) : Text := (Text.dropEnd? "/" s).getD s

def ofPath (path : Text) : Route :=
  if path = "" || path = "/" then home
  else if path = "/robots.txt" then robots
  else if path = "/sitemap.xml" then sitemap
  else
    let segment := dropLastSlash (dropSlash path)
    if segment.isEmpty || segment.contains '/' then notFound else slug segment

end Route

end Folio
