import Folio.Json.Basic

set_option autoImplicit false

/-!
# Settings of a page

Each section is read on its own, so a malformed one takes nothing from the others. A text that is blank
or not a string counts as absent. What is written is read back as the same settings.
-/
namespace Folio

structure SearchSettings where
  title : Option Text
  description : Option Text
  keywords : Option Text
  canonicalUrl : Option Text
  noIndex : Bool
  noFollow : Bool
deriving DecidableEq, Repr

structure SocialSettings where
  title : Option Text
  description : Option Text
  image : Option Text
  card : Option Text
deriving DecidableEq, Repr

structure CustomCode where
  head : Option Text
  footer : Option Text
  css : Option Text
deriving DecidableEq, Repr

structure PageSettings where
  search : SearchSettings
  social : SocialSettings
  code : CustomCode
  hidesHeader : Bool
  hidesFooter : Bool
  bodyClass : Option Text
deriving DecidableEq, Repr

namespace PageSettings

def text? (fields : Json.Fields) (key : Text) : Option Text := (fields.get? key).bind Json.trimmed?

/-- A switch may be a boolean, the text `true` or the number one. -/
def isOn : Json → Bool
  | .bool b => b
  | .string s => s = "true"
  | .number n => n = .integer 1
  | _ => false

def flag (fields : Json.Fields) (key : Text) : Bool := (fields.get? key).any isOn

def keywordsOf? : Json → Option Text
  | .array items =>
    let words := items.filterMap Json.trimmed?
    if words.isEmpty then none else some (Text.join ", " words)
  | value => value.trimmed?

def sectionOf (fields : Json.Fields) (key : Text) : Json.Fields :=
  ((fields.get? key).bind Json.object?).getD []

def searchOf (fields : Json.Fields) : SearchSettings where
  title := text? fields "title"
  description := text? fields "description"
  keywords := (fields.get? "keywords").bind keywordsOf?
  canonicalUrl := text? fields "canonicalUrl"
  noIndex := flag fields "noIndex"
  noFollow := flag fields "noFollow"

def socialOf (fields : Json.Fields) : SocialSettings where
  title := text? fields "ogTitle"
  description := text? fields "ogDescription"
  image := text? fields "ogImage"
  card := text? fields "twitterCard"

def codeOf (fields : Json.Fields) : CustomCode where
  head := text? fields "head"
  footer := text? fields "footer"
  css := text? fields "css"

def ofFields (fields : Json.Fields) : PageSettings where
  search := searchOf (sectionOf fields "seo")
  social := socialOf (sectionOf fields "social")
  code := codeOf (sectionOf fields "customCode")
  hidesHeader := ((fields.get? "disableHeader").bind Json.bool?).getD false
  hidesFooter := ((fields.get? "disableFooter").bind Json.bool?).getD false
  bodyClass := text? fields "customBodyClass"

/-- The settings in a stored value: an object, or a string that holds one. -/
def ofJson [Json.Codec] : Json → PageSettings
  | .object fields => ofFields fields
  | .string s => ofFields (((Json.Codec.read? s).bind Json.object?).getD [])
  | _ => ofFields []

def searchJson (s : SearchSettings) : Json :=
  Json.ofFields [("title", Json.ofOption .string s.title),
    ("description", Json.ofOption .string s.description),
    ("keywords", Json.ofOption .string s.keywords),
    ("canonicalUrl", Json.ofOption .string s.canonicalUrl), ("noIndex", .bool s.noIndex),
    ("noFollow", .bool s.noFollow)]

def socialJson (s : SocialSettings) : Json :=
  Json.ofFields [("ogTitle", Json.ofOption .string s.title),
    ("ogDescription", Json.ofOption .string s.description),
    ("ogImage", Json.ofOption .string s.image), ("twitterCard", Json.ofOption .string s.card)]

def codeJson (c : CustomCode) : Json :=
  Json.ofFields [("head", Json.ofOption .string c.head), ("footer", Json.ofOption .string c.footer),
    ("css", Json.ofOption .string c.css)]

def toJson (p : PageSettings) : Json :=
  Json.ofFields [("seo", searchJson p.search), ("social", socialJson p.social),
    ("customCode", codeJson p.code), ("disableHeader", .bool p.hidesHeader),
    ("disableFooter", .bool p.hidesFooter), ("customBodyClass", Json.ofOption .string p.bodyClass)]

end PageSettings

end Folio
