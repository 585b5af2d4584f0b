import Folio.Proofs.Pages

set_option autoImplicit false

/-!
# The style element of a composed page

The style sheet of a page is put together from base styles, compiled rules and style text of authors.
None of it can end the style element, so the element is read back as one start tag, one raw text and
one end tag, and the raw text is the style sheet.
-/
namespace Folio.Style
open Markup

def sheetElement (sheet : Text) : Text := "<style>" ++ ("\n" ++ sheet ++ "\n") ++ "</style>"

/-- What cannot end its style element is all of the raw text in it. -/
theorem tokens_sheetElement {sheet : Text} (h : Closeless sheet) :
    tokens (sheetElement sheet) =
      [.startTag "style" [] false, .rawText ("\n" ++ sheet ++ "\n"), .endTag "style"] := by
  have htag : isTagName "style" = true := by decide
  have hlines : Closeless ('\n' :: (sheet ++ "\n")) :=
    closeless_cons_of_ne (by decide) (closeless_append_line h (closeless_of_not_mem (by simp)))
  have hstart : Lexer.nextIn none '<' ("style>" ++ ("\n" ++ sheet ++ "\n") ++ "</style>") =
      (.startTag "style" [] false, '\n' :: (sheet ++ "\n" ++ "</style>")) :=
    nextIn_openingTag htag (l := []) (by simp) _
  have hraw : Lexer.nextIn (some "style") '\n' (sheet ++ "\n" ++ "</style>") =
      (Token.rawText ("\n" ++ sheet ++ "\n"), ("</style>" : Text)) :=
    Lexer.nextIn_rawBody (by decide) (rawBody_of_closeless hlines (.inr (by rfl)))
  have hend : Lexer.nextIn none '<' ("/style>" : Text) = (.endTag "style", []) :=
    nextIn_endTag htag []
  change (lexFrom none ('<' :: ("style>" ++ ("\n" ++ sheet ++ "\n") ++ "</style>"))).map Lexeme.token = _
  rw [tokensFrom_cons, hstart]
  change _ :: (lexFrom (some "style") ('\n' :: (sheet ++ "\n" ++ "</style>"))).map Lexeme.token = _
  rw [tokensFrom_cons, hraw]
  change _ :: _ :: (lexFrom none ('<' :: ("/style>" : Text))).map Lexeme.token = _
  rw [tokensFrom_cons, hend, lexFrom]
  rfl

end Folio.Style

namespace Folio
open Markup

theorem Markup.Html.infix_writeAll {h : Html} {l : List Html} (hm : h ∈ l) :
    h.write <:+: Html.writeAll l := by
  induction l with
  | nil => simp at hm
  | cons a l ih =>
    rw [Html.writeAll]
    rcases List.mem_cons.1 hm with rfl | hm
    · exact (List.prefix_append _ _).isInfix
    · exact (ih hm).trans (List.suffix_append _ _).isInfix

theorem Markup.Html.infix_write_element {h : Html} {l : List Html} (hm : h ∈ l) (tag : Text)
    (attributes : List PlainAttribute) :
    h.write <:+: (Html.element tag attributes (Html.onLines l)).write := by
  have hline : h ∈ Html.onLines l :=
    List.mem_cons_of_mem _ (List.mem_flatMap.2 ⟨h, hm, List.mem_cons_self⟩)
  rw [Html.write]
  exact (Html.infix_writeAll hline).trans ⟨_, _, rfl⟩

namespace Layout

theorem sheetOf_ne_nil (entries : List Text) : (sheetOf entries).isEmpty = false := by
  rw [sheetOf, baseEntries, List.map_cons, List.map_cons, List.cons_append, List.cons_append,
    Text.join_cons_cons]
  rfl

/-- The style sheet of a layout in the page that is written. -/
structure HoldsSheet (l : Layout) : Prop where
  closeless : Style.Closeless l.sheet
  written : Style.sheetElement l.sheet <:+: l.write
  tokens : Markup.tokens (Style.sheetElement l.sheet) =
    [.startTag "style" [] false, .rawText ("\n" ++ l.sheet ++ "\n"), .endTag "style"]

theorem write_styleElement (sheet : Text) :
    (Html.element "style" [] (Html.onLines [.markup sheet])).write = Style.sheetElement sheet := by
  have hbreak : escape "\n" = "\n" := by decide
  have hlines : Html.writeAll (Html.onLines [.markup sheet]) = "\n" ++ sheet ++ "\n" := by
    change Html.writeAll [.text "\n", .markup sheet, .text "\n"] = _
    rw [Html.writeAll, Html.writeAll, Html.writeAll, Html.writeAll, Html.write, Html.write, hbreak,
      List.append_nil, List.append_assoc]
  rw [Html.write, hlines]
  rfl

theorem infix_write {l : Layout} (h : l.sheet.isEmpty = false) :
    Style.sheetElement l.sheet <:+: l.write := by
  have hwrite := write_styleElement l.sheet
  have hline : Html.element "style" [] (Html.onLines [.markup l.sheet]) ∈
      l.head.lines l.sheet l.headCode := by
    have hstyle : Html.element "style" [] (Html.onLines [.markup l.sheet]) ∈
        Head.styleLines l.sheet := by
      rw [Head.styleLines, if_neg (Bool.eq_false_iff.1 h)]
      exact List.mem_cons_self
    exact List.mem_append_left _ (List.mem_append_right _ hstyle)
  have hhead : Style.sheetElement l.sheet <:+: (l.head.html l.sheet l.headCode).write :=
    hwrite ▸ Html.infix_write_element hline "head" []
  have hhtml : Style.sheetElement l.sheet <:+: l.html.write :=
    hhead.trans (Html.infix_write_element List.mem_cons_self "html" _)
  exact hhtml.trans ⟨_, _, rfl⟩

theorem holdsSheet {l : Layout} (h : Style.Closeless l.sheet) {entries : List Text}
    (hs : l.sheet = sheetOf entries) : l.HoldsSheet :=
  ⟨h, infix_write (hs ▸ sheetOf_ne_nil entries), Style.tokens_sheetElement h⟩

end Layout

namespace Compose

/-- The style sheet of a composed page cannot end its element, whatever the authors of its parts
    wrote; nor can that of the not-found page. -/
theorem holdsSheet_of_composed [Json.Codec] [Link.HostReader] :
    (∀ c : Context, c.layout.HoldsSheet) ∧
      ∀ (site : Site) (catalog : Catalog), (notFoundLayout site catalog).HoldsSheet := by
  constructor
  · intro c
    exact Layout.holdsSheet (closeless_sheet c) (by rw [Context.layout])
  · intro site catalog
    exact Layout.holdsSheet (closeless_notFoundSheet site catalog) (by rw [notFoundLayout])

end Compose

end Folio
