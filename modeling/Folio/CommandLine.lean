import Folio.Json.Printer
import Folio.Link.SecureHost
import Folio.Render.Walk

set_option autoImplicit false

/-!
# The command line

Renders documents one after the other. A document that cannot be read or is none is reported, and the
others are rendered all the same.
-/
namespace Folio.CommandLine
open Render

structure Run where
  status : Nat
  output : Text
  /-- The lines of the error output. -/
  errors : List Text
deriving DecidableEq, Repr

def usage : List Text :=
  ["Usage: pagecraft-render [--css] <document.json>...", "",
   "Renders each document's ROOT subtree and prints the HTML.",
   "With --css, prints the collected stylesheet after each document."]

def cssOption : Text := "--css"

inductive Failure where
  | unreadable
  | notDocument (e : DocumentError)
deriving DecidableEq, Repr

namespace Failure

def lines : Failure → List Text
  | unreadable => ["  Failed to read document"]
  | notDocument .invalidJson => ["  JSON error"]
  | notDocument .missingRoot =>
    ["  No 'ROOT' node found", "    Documents render from their 'ROOT' node"]
  | notDocument e => ["  " ++ e.message]

end Failure

def load (content : Option Text) : Except Failure Fragment :=
  match content with
  | none => .error .unreadable
  | some s => (renderText s).mapError .notDocument

def printed (withCss : Bool) (f : Fragment) : Text :=
  f.html ++ "\n" ++
    (if withCss && !f.sheet.isEmpty then "<style>\n" ++ f.sheet ++ "\n</style>\n" else [])

def one (withCss : Bool) (path : Text) (content : Option Text) : Run :=
  match load content with
  | .ok f => ⟨0, printed withCss f, []⟩
  | .error e => ⟨1, [], ("✗ " ++ path ++ ":") :: e.lines⟩

def Run.append (r s : Run) : Run := ⟨max r.status s.status, r.output ++ s.output, r.errors ++ s.errors⟩

/-- The run for the given arguments, where `read` gives the contents of files. -/
def run (read : Text → Option Text) (args : List Text) : Run :=
  if args.isEmpty then ⟨1, [], usage⟩
  else
    let withCss := args.contains cssOption
    let paths := args.filter (· ≠ cssOption)
    (paths.map fun path => one withCss path (read path)).foldr Run.append ⟨0, [], []⟩

end Folio.CommandLine
