import Folio.Style.Value

set_option autoImplicit false

/-!
# Declarations

A bag of styling is an object with a key for each property. Its declarations come in the order of the
property table, which puts every shorthand before its longhands. Older documents carry some of the
properties as flat keys on the node itself.
-/
namespace Folio.Style

structure Declaration where
  property : Text
  value : Text
deriving DecidableEq, Repr

open ValueKind in
def properties : List (String × ValueKind) :=
  [("display", keyword), ("position", keyword), ("top", length), ("right", length),
   ("bottom", length), ("left", length), ("z-index", unitless), ("flex-direction", keyword),
   ("flex-wrap", keyword), ("justify-content", keyword), ("align-items", keyword),
   ("align-content", keyword), ("align-self", keyword), ("gap", length), ("row-gap", length),
   ("column-gap", length), ("flex-grow", unitless), ("flex-shrink", unitless),
   ("flex-basis", length), ("order", unitless), ("grid-template-columns", keyword),
   ("grid-template-rows", keyword), ("width", length), ("height", length), ("min-width", length),
   ("max-width", length), ("min-height", length), ("max-height", length), ("padding", length),
   ("padding-top", length), ("padding-right", length), ("padding-bottom", length),
   ("padding-left", length), ("margin", length), ("margin-top", length), ("margin-right", length),
   ("margin-bottom", length), ("margin-left", length), ("overflow", keyword), ("color", keyword),
   ("background-color", keyword), ("background-image", image), ("background-size", keyword),
   ("background-position", keyword), ("background-repeat", keyword), ("font-family", keyword),
   ("font-size", length), ("font-weight", unitless), ("font-style", keyword),
   ("line-height", unitless), ("letter-spacing", length), ("text-align", keyword),
   ("text-decoration", keyword), ("text-transform", keyword), ("border", keyword),
   ("border-width", length), ("border-style", keyword), ("border-color", keyword),
   ("border-radius", length), ("box-shadow", keyword), ("opacity", unitless),
   ("transform", keyword), ("transition", keyword), ("cursor", keyword), ("object-fit", keyword),
   ("aspect-ratio", keyword)]

/-- The key of a property: each hyphen is left out and the letter after it a capital. -/
def key : Text → Text
  | '-' :: c :: s => c.toUpper :: key s
  | c :: s => c :: key s
  | [] => []

def declaration? (fields : Json.Fields) (key property : Text) (kind : ValueKind) :
    Option Declaration :=
  (((Json.Fields.get? fields key).bind Value.ofJson?).bind (Value.write? kind)).map
    fun value => ⟨property, value⟩

def declarationsOfFields (fields : Json.Fields) : List Declaration :=
  properties.filterMap fun (property, kind) =>
    declaration? fields (key property) property kind

def declarations : Json → List Declaration
  | .object fields => declarationsOfFields fields
  | _ => []

def isSet : Json → Bool
  | .null => false
  | .string s => !Text.isBlankText s
  | _ => true

/-- Whether a bag has a key with a value that is neither null nor blank. -/
def hasAnyKeySet : Option Json → Bool
  | some (.object fields) => fields.any fun (_, value) => isSet value
  | _ => false

open ValueKind in
/-- The flat keys with their properties. Of two keys for one property the first that gives a value
    counts. -/
def flatProperties : List (Text × Text × ValueKind) :=
  [("padding", "padding", length), ("margin", "margin", length),
   ("backgroundColor", "background-color", keyword), ("backgroundImage", "background-image", image),
   ("color", "color", keyword), ("textColor", "color", keyword),
   ("fontFamily", "font-family", keyword), ("fontSize", "font-size", length),
   ("fontWeight", "font-weight", unitless), ("textAlign", "text-align", keyword),
   ("lineHeight", "line-height", unitless), ("borderRadius", "border-radius", length),
   ("borderWidth", "border-width", length), ("borderColor", "border-color", keyword),
   ("borderStyle", "border-style", keyword), ("width", "width", length),
   ("height", "height", length), ("maxWidth", "max-width", length),
   ("minHeight", "min-height", length), ("gap", "gap", length), ("opacity", "opacity", unitless)]

def firstOfEach : List Declaration → List Declaration
  | [] => []
  | d :: rest => d :: (firstOfEach rest).filter fun e => e.property ≠ d.property

def flatDeclarations (props : Json.Fields) : List Declaration :=
  firstOfEach (flatProperties.filterMap fun (key, property, kind) =>
    declaration? props key property kind)

def valueOf? (ds : List Declaration) (property : Text) : Option Text :=
  ((ds.filter fun d => d.property = property).getLast?).map Declaration.value

def overlay (ds : List Declaration) (d : Declaration) : List Declaration :=
  match ds with
  | [] => [d]
  | e :: rest => if e.property = d.property then ⟨e.property, d.value⟩ :: rest else e :: overlay rest d

def overlayAll (ds extra : List Declaration) : List Declaration := extra.foldl overlay ds

end Folio.Style
