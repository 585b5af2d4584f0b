import Folio.Json.Basic

set_option autoImplicit false

/-!
# Settings of a site

Read from a flat map. A key that is unknown or holds a value of the wrong type counts as absent, and so
does a text that is blank.
-/
namespace Folio

structure Site where
  title : Option Text
  description : Option Text
  url : Option Text
  favicon : Option Text
  headCode : Option Text
  footerCode : Option Text
  /-- The slug of the page that stands at the root. -/
  homepage : Text
  language : Text
  robotsText : Option Text
  /-- Whether search engines are asked to stay away. -/
  discouraged : Bool
  /-- The image that stands for a page without one of its own. -/
  shareImage : Option Text
deriving DecidableEq, Repr

namespace Site

def defaultHomepage : Text := "home"

def defaultLanguage : Text := "en"

def homepageOf (fields : Json.Fields) : Option Text :=
  (((fields.get? "homepageSlug").bind Json.trimmed?).map (Text.trimChar '/')).filter fun s => !s.isEmpty

def ofFields (fields : Json.Fields) : Site :=
  let text (key : Text) := (fields.get? key).bind Json.trimmed?
  { title := text "siteTitle"
    description := text "siteDescription"
    url := text "siteUrl"
    favicon := text "favicon"
    headCode := text "headCode"
    footerCode := text "footerCode"
    homepage := (homepageOf fields).getD defaultHomepage
    language := (text "language").getD defaultLanguage
    robotsText := text "robotsTxt"
    discouraged := ((fields.get? "discourageSearchEngines").bind Json.bool?).getD false
    shareImage := text "defaultOgImage" }

def baseUrl? (site : Site) : Option Text :=
  (site.url.map (Text.dropEndWhile (· == '/'))).filter fun s => !s.isEmpty

/-- The public URL of a page. The homepage stands at the root of the site. -/
def pageUrl (base slug homepage : Text) : Text :=
  let slug := Text.trimChar '/' slug
  if slug.isEmpty || slug = homepage then base ++ "/" else base ++ "/" ++ slug

end Site

end Folio
