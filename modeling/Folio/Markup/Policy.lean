import Folio.Link.Embed
import Folio.Markup.Reference
import Folio.Markup.Token
import Folio.Style.Hygiene

set_option autoImplicit false

/-!
# What untrusted markup may keep

Under `richContent` an element is kept if its tag is on a list; under `htmlBlock` any well-formed tag
will do. Either way some elements are dropped with everything inside them, and an attribute stays
only if its name is well-formed, no event handler and not blocked. URLs and inline styles are
written from their cleaned values, every other value from its own text.
-/
namespace Folio.Markup

inductive Policy where
  | richContent
  | htmlBlock
  | trustedCode
deriving DecidableEq, Repr

def richTags : List Text :=
  List.map String.toList
    ["a", "abbr", "address", "article", "aside", "audio", "b", "bdi", "bdo", "blockquote", "br",
     "caption", "cite", "code", "col", "colgroup", "dd", "del", "details", "dfn", "div", "dl",
     "dt", "em", "figcaption", "figure", "footer", "h1", "h2", "h3", "h4", "h5", "h6", "header",
     "hr", "i", "iframe", "img", "ins", "kbd", "li", "main", "mark", "nav", "ol", "p", "picture",
     "pre", "q", "s", "samp", "section", "small", "source", "span", "strong", "sub", "summary",
     "sup", "table", "tbody", "td", "tfoot", "th", "thead", "time", "tr", "track", "u", "ul",
     "video", "wbr"]

def droppedTags : List Text :=
  ["script", "style", "template", "object", "embed", "applet", "base", "meta", "link", "frame",
   "frameset", "noscript", "title", "textarea", "xmp", "plaintext", "svg", "math"]

def voidTags : List Text :=
  ["area", "base", "br", "col", "embed", "hr", "img", "input", "link", "meta", "param",
   "source", "track", "wbr"]

def linkAttributes : List Text := ["href", "cite", "action", "formaction", "xlink:href"]

def resourceAttributes : List Text := ["src", "poster", "background"]

/-- Attributes that never stay. Element ids belong to the renderer. -/
def blockedAttributes : List Text := ["id", "srcdoc", "srcset", "name", "form", "is"]

def imageTags : List Text := ["img", "source", "picture", "video"]

def isTagName : Text → Bool
  | [] => false
  | c :: s => c.isLower && s.all fun c => c.isLower || c.isDigit || c = '-'

def isAttributeName (s : Text) : Bool :=
  !s.isEmpty && s.all fun c => c.isAlphanum || c = '-' || c = '_' || c = ':' || c = '.'

/-- An attribute that stays: its decoded value, and the value as it is written. -/
structure Kept where
  name : Text
  value : Text
  written : Text
deriving DecidableEq, Repr

def Kept.escaped (name value : Text) : Kept := ⟨name, value, escapeAttribute value⟩

def mayStay (name : Text) : Bool :=
  isAttributeName name && !Text.startsWith "on" name && !blockedAttributes.contains name

def keep? (tag : Text) (a : Attribute) : Option Kept :=
  let spelled := a.value.getD []
  let value := decode spelled
  if !mayStay a.name then none
  else if a.name = "style" then (Style.cleanInline? value).map (Kept.escaped a.name)
  else if linkAttributes.contains a.name then (Link.safeLink? value).map (Kept.escaped a.name)
  else if resourceAttributes.contains a.name then
    (Link.safeResource? (imageTags.contains tag) value).map (Kept.escaped a.name)
  else some ⟨a.name, value, guardBacktick (respell spelled)⟩

def hasEmbedSource [Link.HostReader] (kept : List Kept) : Bool :=
  kept.any fun a => a.name = "src" && (Link.safeEmbed? a.value).isSome

def opensNewTab (kept : List Kept) : Bool :=
  kept.any fun a => a.name = "target" && Text.sameIgnoringCase a.value "_blank"

/-- A link into a new tab gets the protecting `rel` in place of its own. -/
def protectLink (tag : Text) (kept : List Kept) : List Kept :=
  if tag = "a" && opensNewTab kept then
    kept.filter (fun a => a.name ≠ ("rel" : Text)) ++ [.escaped "rel" "noopener noreferrer"]
  else kept

/-- Whether an element is removed with its content, given the attributes it would keep. -/
def isDropped (tag : Text) : Bool := droppedTags.contains tag

def isAllowed (policy : Policy) (tag : Text) : Bool :=
  isTagName tag && (policy ≠ .richContent || richTags.contains tag)

end Folio.Markup
