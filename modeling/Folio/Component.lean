import Folio.Text.Basic

set_option autoImplicit false

/-!
# Kinds of components

The kinds the renderer can draw, and the type tags the editor gives them. A tag that is not in the
table has no kind.
-/
namespace Folio

inductive Component where
  | container
  | section
  | row
  | column
  | text
  | heading
  | image
  | button
  | link
  | divider
  | spacer
  | icon
  | iconText
  | video
  | htmlBlock
  | list
deriving DecidableEq, Repr

namespace Component

def tags : List (Text × Component) :=
  [("Container", container), ("Box", container), ("Div", container), ("Section", .section),
   ("Row", row), ("Columns", row), ("Column", column), ("Col", column), ("Text", text),
   ("RichText", text), ("Paragraph", text), ("Heading", heading), ("Title", heading),
   ("Image", image), ("Picture", image), ("Button", button), ("Link", link), ("TextLink", link),
   ("Divider", divider), ("Separator", divider), ("Spacer", spacer), ("Icon", icon),
   ("IconText", iconText), ("IconBox", iconText), ("Feature", iconText), ("Video", video),
   ("VideoEmbed", video), ("HtmlBlock", htmlBlock), ("Html", htmlBlock), ("CustomHtml", htmlBlock),
   ("Embed", htmlBlock), ("List", list)]

def ofTag? (tag : Text) : Option Component := tags.lookup tag

def containerElements : List Text :=
  ["div", "section", "article", "aside", "nav", "header", "footer", "main"]

end Component

end Folio
