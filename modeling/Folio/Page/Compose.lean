import Folio.Page
import Folio.Page.Layout
import Folio.Render.Walk
import Folio.Template

set_option autoImplicit false

/-!
# Composing pages

A page, its header and its footer are rendered among one set of element ids, in this order, and their
style sheet entries stand in the same order in the head. The code that site and page add is sanitized
as trusted code, and a piece of it that comes out blank is left out.
-/
namespace Folio
namespace Compose
open Render

def template [Json.Codec] [Link.HostReader] (t : Option Template) (scope : Scope)
    (r : Registry) : Fragment × Registry :=
  match t with
  | some t => renderDocument t.document scope r
  | none => (.empty, r)

/-- Style text of the author that cannot end its element; none where it comes out blank. -/
def customSheet (css : Option Text) : Option Text :=
  (css.map fun s => Text.trim (Style.neutralizeClose (Style.strip s))).filter fun s => !s.isEmpty

def trustedCode [Link.HostReader] (pieces : List (Option Text)) : List Text :=
  (pieces.filterMap fun piece => piece.map (Markup.sanitize .trustedCode)).filter fun s =>
    !Text.isBlankText s

structure Parts where
  main : Fragment
  header : Fragment
  footer : Fragment

namespace Parts

def entries (p : Parts) : List Text := p.main.css ++ p.header.css ++ p.footer.css

end Parts

/-- What one page is composed from. -/
structure Context where
  page : Page
  settings : PageSettings
  site : Site
  catalog : Catalog

namespace Context

def ofPage [Json.Codec] (page : Page) (site : Site) (catalog : Catalog) : Context :=
  ⟨page, PageSettings.ofJson page.settings, site, catalog⟩

def parts [Json.Codec] [Link.HostReader] (c : Context) : Parts :=
  let header :=
    if c.settings.hidesHeader then none else c.catalog.resolve? c.page.headerId .header
  let footer :=
    if c.settings.hidesFooter then none else c.catalog.resolve? c.page.footerId .footer
  let (main, r) := renderDocument c.page.document .page Registry.empty
  let (header, r) := template header .header r
  let (footer, _) := template footer .footer r
  ⟨main, header, footer⟩

def layout [Json.Codec] [Link.HostReader] (c : Context) : Layout :=
  { language := c.site.language
    head := Head.ofPage c.page.title c.page.slug c.settings c.site
    sheet := Layout.sheetOf (c.parts.entries ++ (customSheet c.settings.code.css).toList)
    headCode := trustedCode [c.site.headCode, c.settings.code.head]
    bodyClass := Layout.bodyClassOf (c.settings.bodyClass.getD [])
    header := c.parts.header.html
    main := c.parts.main.html
    footer := c.parts.footer.html
    footerCode := trustedCode [c.site.footerCode, c.settings.code.footer] }

def compose [Json.Codec] [Link.HostReader] (c : Context) : Text := c.layout.write

end Context

def page [Json.Codec] [Link.HostReader] (page : Page) (site : Site)
    (catalog : Catalog) : Text :=
  (Context.ofPage page site catalog).compose

/-- What stands on the not-found page where no template draws anything. -/
def builtInNotFound : Markup.Html :=
  .element "section" [Markup.attr "class" "pc-not-found"]
    [.element "h1" [] [.text "Page not found"],
     .element "p" [] [.text "The page you are looking for does not exist or has been moved."],
     .element "a" [Markup.attr "class" "pc-button pc-button-primary", Markup.attr "href" "/"]
       [.text "Back to home"]]

def notFoundMain (f : Fragment) : Text := if f.isEmpty then builtInNotFound.write else f.html

def notFoundParts [Json.Codec] [Link.HostReader] (catalog : Catalog) : Parts :=
  let (main, r) := template (catalog.published? .notFound) .notFound Registry.empty
  let (header, r) := template (catalog.published? .header) .header r
  let (footer, _) := template (catalog.published? .footer) .footer r
  ⟨main, header, footer⟩

def notFoundLayout [Json.Codec] [Link.HostReader] (site : Site) (catalog : Catalog) : Layout :=
  let parts := notFoundParts catalog
  { language := site.language
    head := Head.ofNotFound site
    sheet := Layout.sheetOf parts.entries
    headCode := trustedCode [site.headCode]
    bodyClass := Layout.bodyClassOf "pc-not-found-page"
    header := parts.header.html
    main := notFoundMain parts.main
    footer := parts.footer.html
    footerCode := trustedCode [site.footerCode] }

def notFound [Json.Codec] [Link.HostReader] (site : Site) (catalog : Catalog) : Text :=
  (notFoundLayout site catalog).write

end Compose

end Folio
