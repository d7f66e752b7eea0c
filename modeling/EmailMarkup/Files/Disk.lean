import EmailMarkup.Files.Basic
/-!
# A disk in memory

A disk holds files and directories by their locations. A path is followed one component at a time,
and every component but the last must be a directory. No name is longer than `nameLimit`.
-/
namespace EmailMarkup.Files

/-- What stands at a location. -/
inductive Entry where
  | directory
  | file (content : String)
  deriving DecidableEq, Repr

/-- Files and directories, the newest first, and the directory where relative paths start. A
directory need not be listed if something in it is. -/
structure Disk where
  entries : List (Location × Entry) := []
  current : Location := []

namespace Disk

def entry? (d : Disk) (l : Location) : Option Entry :=
  match d.entries.lookup l with
  | some e => some e
  | none => if l.isEmpty || d.entries.any fun e => l.isPrefixOf e.1 then some .directory else none

/-- One step along a path, from what was reached before. -/
def step (d : Disk) (l : Location) (component : String) : Except FileFault Location :=
  match d.entry? l with
  | none => .error .notFound
  | some (.file _) => .error .notDirectory
  | some .directory =>
    if component == "" || component == "." then .ok l
    else if component == ".." then .ok l.dropLast
    else if component.utf8ByteSize > nameLimit then .error .nameTooLong
    else
      match d.entry? (l ++ [component]) with
      | some _ => .ok (l ++ [component])
      | none => .error .notFound

/-- Where the path starts that has these components. -/
def start (d : Disk) (path : String) : Location := if isAbsolute path then [] else d.current

def locate (d : Disk) (path : String) : Except FileFault Location :=
  if path.isEmpty then .error .notFound
  else (components path).foldlM d.step (d.start path)

def read (d : Disk) (l : Location) : Except FileFault String :=
  match d.entry? l with
  | some (.file content) => .ok content
  | some .directory => .error .isDirectory
  | none => .error .notFound

def put (d : Disk) (l : Location) (e : Entry) : Disk := { d with entries := (l, e) :: d.entries }

/-- Where a file of this path is or would be: its directory must exist, and a path that ends in a
slash is none of a file. -/
def target (d : Disk) (path : String) : Except FileFault Location := do
  checkPath path
  if path.isEmpty then throw .notFound
  match (components path).reverse.dropWhile (· == "") with
  | [] => throw .isDirectory
  | name :: above =>
    let l ← above.reverse.foldlM d.step (d.start path)
    if d.entry? l != some .directory then throw .notDirectory
    if path.toList.getLast? == some '/' || name == "." || name == ".." then throw .isDirectory
    if name.utf8ByteSize > nameLimit then throw .nameTooLong
    return l ++ [name]

def write (d : Disk) (path content : String) : Except FileFault Disk := do
  let l ← d.target path
  if d.entry? l == some .directory then throw .isDirectory
  return d.put l (.file content)

def fileSystem {m : Type → Type} [Monad m] (d : Disk) : FileSystem m where
  locate path := pure (d.locate path)
  read l := pure (d.read l)

end Disk

end EmailMarkup.Files
