import Folio.Markup.Policy

set_option autoImplicit false

/-!
# Sanitizing markup

Untrusted markup is read into tokens and written anew. What is written is a list of pieces: escaped
text, start tags, and end tags. The elements that stand open are kept on a stack, so an end tag
without its element is dropped, and every element that is still open at its parent's end, or at the
end of the text, is closed there. Trusted code is left as it is, style text apart.
-/
namespace Folio.Markup

inductive Piece where
  | text (written : Text)
  | opening (tag : Text) (attributes : List Kept)
  | closing (tag : Text)
deriving DecidableEq, Repr

namespace Piece

def writeAttribute (a : Kept) : Text := ' ' :: a.name ++ "=\"" ++ a.written ++ "\""

def write : Piece → Text
  | text written => written
  | opening tag attributes => '<' :: tag ++ attributes.flatMap writeAttribute ++ ">"
  | closing tag => "</" ++ tag ++ ">"

end Piece

/-- The elements that stand open, the innermost first, and the element that is being dropped with
    the number of its like around the current place. -/
structure Progress where
  opened : List Text
  dropping : Option (Text × Nat)
deriving DecidableEq, Repr

namespace Progress

def start : Progress := ⟨[], none⟩

def drop (p : Progress) (tag : Text) (selfClosing : Bool) : Progress :=
  if selfClosing || voidTags.contains tag then p else { p with dropping := some (tag, 1) }

/-- The stack within a dropped element; the element ends with the end tag of the outermost. -/
def inside (tag : Text) (depth : Nat) : Token → Option (Text × Nat)
  | .startTag name _ false => if name = tag then some (tag, depth + 1) else some (tag, depth)
  | .endTag name =>
    if name = tag then (if depth ≤ 1 then none else some (tag, depth - 1)) else some (tag, depth)
  | _ => some (tag, depth)

end Progress

def closeTo? (tag : Text) : List Text → Option (List Text × List Text)
  | [] => none
  | t :: rest =>
    if t = tag then some ([t], rest)
    else (closeTo? tag rest).map fun (closed, rest) => (t :: closed, rest)

def openElement [Link.HostReader] (policy : Policy) (p : Progress) (tag : Text)
    (attributes : List Attribute) (selfClosing : Bool) : List Piece × Progress :=
  let kept := attributes.filterMap (keep? tag)
  if isDropped tag then ([], p.drop tag selfClosing)
  else if !isAllowed policy tag then ([], p)
  else if tag = "iframe" && !hasEmbedSource kept then ([], p.drop tag selfClosing)
  else
    ([.opening tag (protectLink tag kept)],
      if voidTags.contains tag then p else { p with opened := tag :: p.opened })

def closeElement (p : Progress) (tag : Text) : List Piece × Progress :=
  match closeTo? tag p.opened with
  | none => ([], p)
  | some (closed, rest) => (closed.map .closing, { p with opened := rest })

def step [Link.HostReader] (policy : Policy) (p : Progress) (t : Token) : List Piece × Progress :=
  match p.dropping with
  | some (tag, depth) => ([], { p with dropping := Progress.inside tag depth t })
  | none =>
    match t with
    | .text s => ([.text (respell s)], p)
    | .rawText s => ([.text (escape s)], p)
    | .startTag tag attributes selfClosing => openElement policy p tag attributes selfClosing
    | .endTag tag => closeElement p tag
    | .comment _ => ([], p)
    | .bogus => ([], p)

/-- The pieces that tokens write; at the end the open elements are closed. -/
def pieces [Link.HostReader] (policy : Policy) (p : Progress) : List Token → List Piece
  | [] => p.opened.map .closing
  | t :: rest => (step policy p t).1 ++ pieces policy (step policy p t).2 rest

def written (l : List Piece) : Text := l.flatMap Piece.write

def sanitizeUntrusted [Link.HostReader] (policy : Policy) (s : Text) : Text :=
  written (pieces policy .start (tokens s))

def trustedAttribute (a : Attribute) : Text :=
  match a.value with
  | none => ' ' :: a.name
  | some v =>
    let value := if a.name = "style" then Style.strip (decode v) else decode v
    ' ' :: a.name ++ "=\"" ++ escapeAttribute value ++ "\""

def rebuildTag (tag : Text) (attributes : List Attribute) (selfClosing : Bool) : Text :=
  '<' :: tag ++ attributes.flatMap trustedAttribute ++ (if selfClosing then " />" else ">")

def hasStyle (attributes : List Attribute) : Bool := attributes.any fun a => a.name = "style"

/-- What a lexeme of trusted code becomes, within the content of a style element or not. -/
def trustedLexeme (inStyle : Bool) (l : Lexeme) : Text :=
  match l.token with
  | .rawText s => if inStyle then Style.neutralizeClose (Style.strip s) else l.source
  | .startTag tag attributes selfClosing =>
    if hasStyle attributes then rebuildTag tag attributes selfClosing else l.source
  | _ => l.source

def inStyleAfter (inStyle : Bool) : Token → Bool
  | .startTag tag _ selfClosing => tag = "style" && !selfClosing
  | .endTag _ => false
  | _ => inStyle

def trusted (inStyle : Bool) : List Lexeme → Text
  | [] => []
  | l :: rest => trustedLexeme inStyle l ++ trusted (inStyleAfter inStyle l.token) rest

def sanitizeTrusted (s : Text) : Text := trusted false (lex s)

def sanitize [Link.HostReader] (policy : Policy) (s : Text) : Text :=
  match policy with
  | .trustedCode => sanitizeTrusted s
  | policy => sanitizeUntrusted policy s

end Folio.Markup
