import Folio.Yaml.Basic

set_option autoImplicit false

/-!
# YAML tokens

What a scanner finds in a text, in its order. Collections by indentation have a token where they start
and one where they end; a key has its token even where the text has a mark only after it, the colon.
-/
namespace Folio.Yaml

/-- A tag as it is written: a handle, which stands for the beginning of the tag, and the rest of it. A
    tag written in full has no handle. -/
structure Tag where
  handle : Text
  ending : Text
deriving DecidableEq, Repr

inductive Token where
  | version (major minor : Nat)
  | handle (name expansion : Text)
  | documentStart
  | documentEnd
  /-- A sequence or a mapping by indentation starts. -/
  | sequenceStart
  | mappingStart
  /-- The innermost collection by indentation ends. -/
  | blockEnd
  | openSequence
  | closeSequence
  | openMapping
  | closeMapping
  | comma
  /-- An item of a sequence by indentation. -/
  | item
  | key
  | value
  | reference (anchor : Nat)
  | anchor (number : Nat)
  | tag (tag : Tag)
  | scalar (style : ScalarStyle) (text : Text)
deriving DecidableEq, Repr

end Folio.Yaml
