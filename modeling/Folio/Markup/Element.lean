import Folio.Markup.Reference

set_option autoImplicit false

/-!
# Writing elements

The renderer builds elements and writes them in one place. Attribute values and texts are escaped
there; `markup` holds markup that is safe already, such as sanitized content or the elements of the
children.
-/
namespace Folio.Markup

/-- An attribute with its plain value, or a bare one. -/
abbrev PlainAttribute := Text × Option Text

inductive Html where
  | element (tag : Text) (attributes : List PlainAttribute) (content : List Html)
  /-- An element without content and end tag. -/
  | void (tag : Text) (attributes : List PlainAttribute)
  | text (s : Text)
  | markup (s : Text)

namespace Html

def writeAttribute : PlainAttribute → Text
  | (name, none) => ' ' :: name
  | (name, some value) => ' ' :: name ++ "=\"" ++ escapeAttribute value ++ "\""

def startTag (tag : Text) (attributes : List PlainAttribute) : Text :=
  '<' :: tag ++ attributes.flatMap writeAttribute ++ ">"

def endTag (tag : Text) : Text := "</" ++ tag ++ ">"

mutual

def write : Html → Text
  | element tag attributes content => startTag tag attributes ++ writeAll content ++ endTag tag
  | void tag attributes => startTag tag attributes
  | text s => escape s
  | markup s => s

def writeAll : List Html → Text
  | [] => []
  | h :: rest => write h ++ writeAll rest

end

/-- Nodes on lines of their own, after the line of the tag around them. -/
def onLines (l : List Html) : List Html := text "\n" :: l.flatMap fun h => [h, text "\n"]

end Html

def attr (name value : Text) : PlainAttribute := (name, some value)

def bare (name : Text) : PlainAttribute := (name, none)

end Folio.Markup
