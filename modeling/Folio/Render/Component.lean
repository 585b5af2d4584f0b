import Folio.Component
import Folio.Identity
import Folio.Markup.Sanitize
import Folio.Render.Video
import Folio.Style.Declaration

set_option autoImplicit false

/-!
# Drawing components

Each kind of component is one outermost element that carries the node's element id, so the rules
compiled for `#id` find it. The children stand inside it, except in dividers, spacers and icons,
which have none.
-/
namespace Folio.Render
open Markup

def linkAttributes (l : LinkTarget) : List PlainAttribute :=
  attr "href" l.href ::
    (if l.newTab then [attr "target" "_blank", attr "rel" "noopener noreferrer"] else [])

def linkOrHash (l : Option LinkTarget) : List PlainAttribute :=
  match l with
  | some l => linkAttributes l
  | none => [attr "href" "#"]

def box (tag id class_ : Text) (content : List Html) : Html :=
  .element tag [attr "id" id, attr "class" class_] content

def containerTag (p : Props) : Text :=
  (((p.string? "htmlTag").map Text.lower).filter Component.containerElements.contains).getD "div"

def content [Link.HostReader] (policy : Policy) (p : Props) (keys : List Text) : Html :=
  .markup (((p.firstText? keys).map (sanitize policy)).getD [])

def buttonClass (p : Props) : Text :=
  match p.string? "variant" with
  | some variant => "pc-button pc-button-" ++ Identity.token variant
  | none => "pc-button"

def button (id : Text) (p : Props) (children : Html) : Html :=
  .element "a" ([attr "id" id, attr "class" (buttonClass p)] ++ linkOrHash p.link?)
    [.text ((p.text? "text").getD "Button"), children]

/-- A link without a text shows its target. -/
def linkText (p : Props) : Text := ((p.text? "text").or (p.link?.map LinkTarget.href)).getD []

def link (id : Text) (p : Props) (children : Html) : Html :=
  .element "a" ([attr "id" id, attr "class" "pc-link"] ++ linkOrHash p.link?)
    [.text (linkText p), children]

/-- The level a number stands for: the nearest integer from one to six. -/
def levelOf (x : Double) : Nat :=
  match x.roundAway with
  | some n => (max 1 (min 6 n)).toNat
  | none =>
    match x with
    | .infinite negative => if negative then 1 else 6
    | _ => 0

def spelledLevel? (s : Text) : Option Double :=
  match s with
  | 'h' :: r => Numeral.read? r
  | 'H' :: r => Numeral.read? r
  | _ => none

def headingLevel (p : Props) : Nat :=
  (((p.double? "level").or ((p.string? "level").bind spelledLevel?)).map levelOf).getD 2

def heading (id : Text) (p : Props) (children : Html) : Html :=
  let text := Html.text ((p.text? "text").getD [])
  let inner := match p.link? with
    | some l => .element "a" (linkAttributes l) [text]
    | none => text
  .element ("h" ++ Text.ofNat (headingLevel p)) [attr "id" id] [inner, children]

def pixels (p : Props) (key : Text) : List PlainAttribute :=
  ((((p.double? key).filter Double.isAboveZero).bind Style.formatNumber?).map (attr key)).toList

def picture (id : List PlainAttribute) (p : Props) (src alt : Text) : Html :=
  .void "img"
    (id ++ [attr "class" "pc-image", attr "src" src, attr "alt" alt, attr "loading" "lazy",
      attr "decoding" "async"] ++ pixels p "width" ++ pixels p "height")

def imageLink? (p : Props) : Option LinkTarget :=
  if (p.get? "href").isSome || (p.get? "link").isSome then p.link? else none

def framedPicture (p : Props) (src alt : Text) : Html :=
  match imageLink? p with
  | some l => .element "a" (linkAttributes l) [picture [] p src alt]
  | none => picture [] p src alt

def figure (id : Text) (p : Props) (src alt : Text) (caption : Option Text) (children : Html) : Html :=
  box "figure" id "pc-image-figure"
    (framedPicture p src alt ::
      (caption.map fun c => Html.element "figcaption" [] [.text c]).toList ++ [children])

def loneImage (id : Text) (p : Props) (src alt : Text) : Html :=
  match imageLink? p with
  | some l =>
    .element "a" ([attr "id" id, attr "class" "pc-image-link"] ++ linkAttributes l)
      [picture [] p src alt]
  | none => picture [attr "id" id] p src alt

def imageSource? (p : Props) : Option Text :=
  (p.firstString? ["src", "url", "image"]).bind (Link.safeResource? true)

/-- A caption or children put an image into a figure. -/
def image (id : Text) (p : Props) (children : Text) : Html :=
  let alt := (p.string? "alt").getD []
  match imageSource? p with
  | none =>
    .element "div"
      [attr "id" id, attr "class" "pc-image-placeholder", attr "role" "img",
       attr "aria-label" (if alt.isEmpty then "Image" else alt)] [.markup children]
  | some src =>
    let caption := p.text? "caption"
    if caption.isSome || !children.isEmpty then figure id p src alt caption (.markup children)
    else loneImage id p src alt

def iconName (p : Props) : Text := (p.firstString? ["name", "icon"]).getD "star"

def iconLabel (p : Props) : Text := (p.firstString? ["label", "ariaLabel", "alt"]).getD (iconName p)

def iconSize (p : Props) : Text :=
  (((p.double? "size").filter Double.isAboveZero).bind Style.formatNumber?).getD "24"

def drawingAttributes (size : Text) : List PlainAttribute :=
  [attr "xmlns" "http://www.w3.org/2000/svg", attr "width" size, attr "height" size,
   attr "viewBox" "0 0 24 24", attr "fill" "none", attr "stroke" "currentColor",
   attr "stroke-width" "2", attr "aria-hidden" "true", attr "focusable" "false"]

def iconDrawing (size : Text) : Html :=
  .element "svg" (drawingAttributes size)
    [.element "circle" [attr "cx" "12", attr "cy" "12", attr "r" "10"] []]

def icon (id : List PlainAttribute) (p : Props) : Html :=
  .element "span"
    (id ++ [attr "class" "pc-icon", attr "role" "img", attr "aria-label" (iconLabel p),
      attr "data-icon" (Identity.token (iconName p))]) [iconDrawing (iconSize p)]

def iconTitle (p : Props) : List Html :=
  ((p.text? "title").map fun t =>
    Html.element "h3" [attr "class" "pc-icon-text-title"] [.text t]).toList

def iconDescription [Link.HostReader] (p : Props) : List Html :=
  ((p.firstString? ["description", "text"]).map fun d =>
    Html.element "div" [attr "class" "pc-icon-text-description"]
      [.markup (sanitize .richContent d)]).toList

def iconText [Link.HostReader] (id : Text) (p : Props) (children : Html) : Html :=
  box "div" id "pc-icon-text"
    [icon [] p,
     .element "div" [attr "class" "pc-icon-text-body"]
       (iconTitle p ++ iconDescription p ++ [children])]

def isOrdered (p : Props) : Bool :=
  (p.bool? "ordered").getD false ||
    (p.string? "listType").any (["ordered", "ol", "numbered"] : List Text).contains

def itemText? : Json → Option Text
  | .string s => some s
  | .object fields => (Json.Fields.get? fields "text").bind Json.string?
  | _ => none

def listItems (p : Props) : List Html :=
  ((((p.get? "items").bind Json.array?).getD []).filterMap itemText?).map fun s =>
    .element "li" [] [.text s]

def component [Link.HostReader] (kind : Component) (id : Text) (p : Props) (children : Text) : Html :=
  let inside := Html.markup children
  match kind with
  | .container => box (containerTag p) id "pc-container" [inside]
  | .section =>
    box "section" id "pc-section" [.element "div" [attr "class" "pc-section-inner"] [inside]]
  | .row => box "div" id "pc-row" [inside]
  | .column => box "div" id "pc-column" [inside]
  | .text =>
    box "div" id "pc-text" [content .richContent p ["text", "html", "content"], inside]
  | .heading => heading id p inside
  | .image => image id p children
  | .button => button id p inside
  | .link => link id p inside
  | .divider => .void "hr" [attr "id" id, attr "class" "pc-divider"]
  | .spacer =>
    .element "div" [attr "id" id, attr "class" "pc-spacer", attr "aria-hidden" "true"] []
  | .icon => icon [attr "id" id] p
  | .iconText => iconText id p inside
  | .video => video id p inside
  | .htmlBlock =>
    box "div" id "pc-html" [content .htmlBlock p ["html", "code", "content"], inside]
  | .list =>
    box (if isOrdered p then "ol" else "ul") id "pc-list" (listItems p ++ [inside])

/-- The wrapper of a component whose tag has no kind. -/
def generic (id typeTag children : Text) : Html :=
  .element "div" [attr "id" id, attr "class" "pc-block", attr "data-component" typeTag]
    [.markup children]

def spacerHeight (p : Props) : Text :=
  (((p.double? "height").filter fun x => !x.isBelowZero).bind Style.formatNumber?).getD "40" ++ "px"

def defaults (kind : Component) (p : Props) : List Style.Declaration :=
  match kind with
  | .spacer => [⟨"height", spacerHeight p⟩]
  | _ => []

end Folio.Render
