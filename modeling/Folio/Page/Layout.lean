import Folio.Page.Head

set_option autoImplicit false

/-!
# The layout of a page

The parts of a composed page in the order they are written. A header or footer without content leaves
no element behind.
-/
namespace Folio
open Markup

structure Layout where
  language : Text
  head : Head
  sheet : Text
  headCode : List Text
  bodyClass : Text
  header : Text
  main : Text
  footer : Text
  footerCode : List Text

namespace Layout

def baseEntries : List String :=
  ["*, *::before, *::after \x7b box-sizing: border-box; \x7d",
   "html \x7b -webkit-text-size-adjust: 100%; \x7d",
   "body \x7b margin: 0; font-family: system-ui, -apple-system, \"Segoe UI\", Roboto, sans-serif; line-height: 1.5; \x7d",
   "img, video, iframe \x7b max-width: 100%; \x7d",
   "img \x7b height: auto; display: block; \x7d",
   ".pc-main \x7b display: block; \x7d",
   ".pc-section \x7b width: 100%; \x7d",
   ".pc-section-inner \x7b max-width: 1200px; margin: 0 auto; \x7d",
   ".pc-container \x7b display: block; \x7d",
   ".pc-row \x7b display: flex; flex-wrap: wrap; \x7d",
   ".pc-column \x7b flex: 1 1 0; min-width: 0; \x7d",
   ".pc-image-figure \x7b margin: 0; \x7d",
   ".pc-image-placeholder \x7b background: #e5e7eb; min-height: 120px; \x7d",
   ".pc-button \x7b display: inline-block; padding: 10px 20px; border-radius: 4px; text-decoration: none; cursor: pointer; \x7d",
   ".pc-button-primary \x7b background: #2563eb; color: #fff; \x7d",
   ".pc-button-secondary \x7b background: #e5e7eb; color: #111827; \x7d",
   ".pc-button-outline \x7b border: 1px solid currentColor; color: inherit; \x7d",
   ".pc-divider \x7b border: 0; border-top: 1px solid #e5e7eb; \x7d",
   ".pc-icon \x7b display: inline-flex; width: 24px; height: 24px; \x7d",
   ".pc-icon svg \x7b width: 100%; height: 100%; \x7d",
   ".pc-icon-text \x7b display: flex; gap: 12px; align-items: flex-start; \x7d",
   ".pc-video \x7b position: relative; \x7d",
   ".pc-video iframe \x7b width: 100%; aspect-ratio: 16 / 9; border: 0; \x7d",
   ".pc-video-placeholder \x7b background: #111827; aspect-ratio: 16 / 9; \x7d",
   ".pc-not-found \x7b padding: 96px 24px; text-align: center; \x7d"]

def sheetOf (entries : List Text) : Text := Text.join "\n" (baseEntries.map String.toList ++ entries)

def isClassChar (c : Char) : Bool := c.isAlphanum || c = '_' || c = '-'

def words (s : Text) : List Text :=
  (Text.split ' ' (s.map fun c => if Text.isBlank c then ' ' else c)).filter fun w => !w.isEmpty

/-- The class of every page, and then those the author gave it, without the characters that do not
    belong in a class. -/
def bodyClassOf (authored : Text) : Text :=
  let classes := ((words authored).map (·.filter isClassChar)).filter fun w => !w.isEmpty
  Text.join " " ("pc-page" :: classes)

def framed (tag class_ content : Text) : List Html :=
  if content.isEmpty then [] else [.element tag [attr "class" class_] [.markup content]]

def body (l : Layout) : Html :=
  .element "body" [attr "class" l.bodyClass] (Html.onLines
    (framed "header" "pc-site-header" l.header ++
      [.element "main" [attr "class" "pc-main"] [.markup l.main]] ++
      framed "footer" "pc-site-footer" l.footer ++ l.footerCode.map .markup))

def html (l : Layout) : Html :=
  .element "html" [attr "lang" l.language] (Html.onLines [l.head.html l.sheet l.headCode, l.body])

def write (l : Layout) : Text := "<!DOCTYPE html>\n" ++ l.html.write ++ "\n"

end Layout

end Folio
