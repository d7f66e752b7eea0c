import EmailMarkup.CommandLine.Basic
import EmailMarkup.Files.Disk
/-!
# Runs on a disk in memory
-/
namespace EmailMarkup.CommandLine

open EmailMarkup.Files

/-- A machine whose files are on a disk in memory, with the given standard input. -/
def Host.onDisk (input : String) : Host (StateM Disk) where
  files := {
    locate := fun path => do return (← get).locate path
    read := fun l => do return (← get).read l }
  write path content := do
    match (← get).write path content with
    | .ok d =>
      set d
      return .ok ()
    | .error fault => return .error fault
  input := return .ok input

/-- Runs the program on a disk, and returns the disk it leaves. -/
def runOnDisk (d : Disk) (arguments : List String) (input : String) : Report × Disk :=
  (respond (Host.onDisk input) arguments).run d

end EmailMarkup.CommandLine
