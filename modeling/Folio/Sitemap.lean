import Folio.Page
import Folio.Site

set_option autoImplicit false

/-!
# Sitemap and robots

The sitemap lists every page that is published, is no template, may be indexed and has a slug, in the
order given. Without a site URL its locations are paths from the root.
-/
namespace Folio

structure SitemapEntry where
  slug : Text
  updated : Option Timestamp
  published : Bool
  isTemplate : Bool
  noIndex : Bool
deriving DecidableEq, Repr

namespace SitemapEntry

def ofPage [Json.Codec] (p : Page) : SitemapEntry where
  slug := p.slug
  updated := p.updated
  published := p.published
  isTemplate := p.isTemplate
  noIndex := (PageSettings.ofJson p.settings).search.noIndex

def isListed (e : SitemapEntry) : Bool :=
  e.published && !e.isTemplate && !e.noIndex && !Text.isBlankText e.slug

end SitemapEntry

namespace Sitemap

def escapeChar : Char → Text
  | '&' => "&amp;"
  | '<' => "&lt;"
  | '>' => "&gt;"
  | '"' => "&quot;"
  | '\'' => "&apos;"
  | c => [c]

def escape (s : Text) : Text := s.flatMap escapeChar

def location (site : Site) (e : SitemapEntry) : Text :=
  Site.pageUrl (site.baseUrl?.getD []) e.slug site.homepage

def writeEntry (site : Site) (e : SitemapEntry) : Text :=
  let modified := match e.updated with
    | some t => "    <lastmod>" ++ t.date.write ++ "</lastmod>\n"
    | none => []
  "  <url>\n    <loc>" ++ escape (location site e) ++ "</loc>\n" ++ modified ++ "  </url>\n"

def nameSpace : Text := "http://www.sitemaps.org/schemas/sitemap/0.9"

def write (site : Site) (entries : List SitemapEntry) : Text :=
  "<?xml version=\"1.0\" encoding=\"UTF-8\"?>\n<urlset xmlns=\"" ++ nameSpace ++ "\">\n" ++
    (entries.filter SitemapEntry.isListed).flatMap (writeEntry site) ++ "</urlset>\n"

end Sitemap

/-- The robots file: the one the site sets, ended by a line feed, or else one that allows or forbids
    everything and names the sitemap. -/
def Site.robotsFile (site : Site) : Text :=
  match site.robotsText with
  | some s => if Text.endsWith "\n" s then s else s ++ "\n"
  | none =>
    "User-agent: *\n" ++ (if site.discouraged then "Disallow: /\n" else "Allow: /\n") ++
      match site.baseUrl? with
      | some base => "\nSitemap: " ++ base ++ "/sitemap.xml\n"
      | none => []

end Folio
