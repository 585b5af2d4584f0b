import Folio.CommandLine

set_option autoImplicit false

/-!
# The program

Reads the named files, runs the command line on their contents and prints what it leaves behind.
-/

def content? (path : String) : IO (Option String) := do
  try
    return some (← IO.FS.readFile path)
  catch _ =>
    return none

def main (args : List String) : IO UInt32 := do
  let contents ← args.mapM fun path => do
    let content ← content? path
    return (path.toList, content.map String.toList)
  let read (path : Folio.Text) : Option Folio.Text := (contents.lookup path).join
  let run := Folio.CommandLine.run read (args.map String.toList)
  (← IO.getStdout).putStr (String.ofList run.output)
  for line in run.errors do
    IO.eprintln (String.ofList line)
  return UInt32.ofNat run.status
