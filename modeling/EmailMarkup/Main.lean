import EmailMarkup.CommandLine.Basic
/-!
# The program

Connects the command line to the machine it runs on.
-/
namespace EmailMarkup

open EmailMarkup.CommandLine
open EmailMarkup.Files

/-- What the file system refused. -/
def faultOf (e : IO.Error) : FileFault :=
  match e with
  | .noFileOrDirectory .. => .notFound
  | .inappropriateType _ 21 _ => .isDirectory
  | .inappropriateType _ 20 _ => .notDirectory
  | .invalidArgument _ 36 _ => .nameTooLong
  | .userError _ => .notText
  | e => .other (toString e) 0

def tryFiles {α : Type} (action : IO α) : IO (Except FileFault α) := do
  match ← action.toBaseIO with
  | .ok a => return .ok a
  | .error e => return .error (faultOf e)

def machine : Host IO where
  files := {
    locate := fun path => tryFiles do
      return (components (← IO.FS.realPath path).toString).filter (!·.isEmpty)
    read := fun l => tryFiles (IO.FS.readFile l.text) }
  write path content := tryFiles (IO.FS.writeFile path content)
  input := tryFiles do (← IO.getStdin).readToEnd

end EmailMarkup

def main (arguments : List String) : IO UInt32 := do
  let report ← EmailMarkup.CommandLine.respond EmailMarkup.machine arguments
  IO.eprint report.errors
  IO.print report.output
  return report.code.toUInt32
