import Folio.Link.Url
import Folio.Markup.Element
import Folio.Page.Settings
import Folio.Site

set_option autoImplicit false

/-!
# The head of a page

What the head says is settled before it is written: a page's own settings come first, then those of
the site. The head of the not-found page is never indexed and has neither a canonical URL nor a card
for sharing.
-/
namespace Folio
open Markup

structure RobotsRule where
  noIndex : Bool
  noFollow : Bool
deriving DecidableEq, Repr

namespace RobotsRule

def content : RobotsRule → Text
  | ⟨false, false⟩ => "index, follow"
  | ⟨true, false⟩ => "noindex, follow"
  | ⟨false, true⟩ => "index, nofollow"
  | ⟨true, true⟩ => "noindex, nofollow"

end RobotsRule

structure ShareCard where
  kind : Text
  title : Text
  description : Option Text
  image : Option Text
deriving DecidableEq, Repr

structure Head where
  title : Text
  description : Option Text
  keywords : Option Text
  canonicalUrl : Option Text
  robots : RobotsRule
  favicon : Option Text
  siteName : Option Text
  card : Option ShareCard
deriving DecidableEq, Repr

namespace Head

/-- The title for search engines as it is, or else the page title with the site title after it. -/
def titleOf (searchTitle : Option Text) (pageTitle : Text) (siteTitle : Option Text) : Text :=
  match (searchTitle.map Text.trim).filter fun s => !s.isEmpty with
  | some title => title
  | none =>
    let pageTitle := Text.trim pageTitle
    if pageTitle.isEmpty then siteTitle.getD []
    else
      match siteTitle with
      | none => pageTitle
      | some site => if site = pageTitle then pageTitle else pageTitle ++ " | " ++ site

def isRootPath (url : Text) : Bool := Text.startsWith "/" url && !Text.startsWith "//" url

/-- An image that can be fetched from elsewhere: a path from the root gets the site URL before it. -/
def shareImage? (site : Site) (written : Text) : Option Text :=
  (Link.safeResource? false written).map fun url =>
    match site.baseUrl? with
    | some base => if isRootPath url then base ++ url else url
    | none => url

def canonicalUrl? (slug : Text) (search : SearchSettings) (site : Site) : Option Text :=
  (search.canonicalUrl.bind Link.safeLink?).or
    (site.baseUrl?.map fun base => Site.pageUrl base slug site.homepage)

def ofPage (title slug : Text) (settings : PageSettings) (site : Site) : Head :=
  let search := settings.search
  let social := settings.social
  let title := titleOf search.title title site.title
  let description := search.description.or site.description
  { title
    description
    keywords := search.keywords
    canonicalUrl := canonicalUrl? slug search site
    robots := ⟨search.noIndex || site.discouraged, search.noFollow || site.discouraged⟩
    favicon := site.favicon
    siteName := site.title
    card := some
      { kind := "website"
        title := social.title.getD title
        description := social.description.or description
        image := (social.image.or site.shareImage).bind (shareImage? site) } }

def ofNotFound (site : Site) : Head where
  title := titleOf none "Page not found" site.title
  description := site.description
  keywords := none
  canonicalUrl := none
  robots := ⟨true, site.discouraged⟩
  favicon := site.favicon
  siteName := site.title
  card := none

def named (name content : Text) : Html := .void "meta" [attr "name" name, attr "content" content]

def property (name content : Text) : Html :=
  .void "meta" [attr "property" name, attr "content" content]

def linked (rel href : Text) : Html := .void "link" [attr "rel" rel, attr "href" href]

def cardLines (url siteName : Option Text) (c : ShareCard) : List Html :=
  [property "og:type" c.kind, property "og:title" c.title] ++
    (c.description.map (property "og:description")).toList ++
    (url.map (property "og:url")).toList ++
    (siteName.map (property "og:site_name")).toList ++
    (c.image.map (property "og:image")).toList ++
    [named "twitter:card" (if c.image.isSome then "summary_large_image" else "summary"),
     named "twitter:title" c.title] ++
    (c.description.map (named "twitter:description")).toList ++
    (c.image.map (named "twitter:image")).toList

def styleLines (sheet : Text) : List Html :=
  if sheet.isEmpty then [] else [.element "style" [] (Html.onLines [.markup sheet])]

def lines (h : Head) (sheet : Text) (code : List Text) : List Html :=
  [.void "meta" [attr "charset" "utf-8"],
   named "viewport" "width=device-width, initial-scale=1", .element "title" [] [.text h.title]] ++
    (h.description.map (named "description")).toList ++
    (h.keywords.map (named "keywords")).toList ++
    [named "robots" h.robots.content] ++
    (h.canonicalUrl.map (linked "canonical")).toList ++
    h.card.toList.flatMap (cardLines h.canonicalUrl h.siteName) ++
    ((h.favicon.bind (Link.safeResource? true)).map (linked "icon")).toList ++
    styleLines sheet ++ code.map .markup

def html (h : Head) (sheet : Text) (code : List Text) : Html :=
  .element "head" [] (Html.onLines (h.lines sheet code))

end Head

end Folio
