import EmailMarkup.Error
import EmailMarkup.Text.Blank
/-!
# Files

What the library asks of a file system: where a path leads, and what a file holds. A location is the
list of the components of an absolute path without `.`, `..` or links; every operation on files goes
through it.
-/
namespace EmailMarkup.Files

/-- The components of an absolute path, from the root. -/
abbrev Location := List String

def Location.text (l : Location) : String := "/" ++ "/".intercalate l

/-- The components of a path between its slashes, empty ones included. -/
def components (path : String) : List String :=
  (Text.pieces (· == '/') path.toList).map String.ofList

/-- Whether a path starts at the root. -/
def isAbsolute (path : String) : Bool := path.toList.head? == some '/'

/-- A path taken relative to another; an absolute path stands for itself. -/
def join (base path : String) : String :=
  if isAbsolute path then path
  else if base.isEmpty || base.toList.getLast? == some '/' then base ++ path
  else base ++ "/" ++ path

/-! ## Limits -/

/-- The longest name of a file or directory, in bytes. -/
def nameLimit : Nat := 255

/-- The longest path under which a file can be opened, in bytes. -/
def pathLimit : Nat := 4095

/-- Refuses a path with a NUL, which would end it for a file system. -/
def checkName (path : String) : Except FileFault Unit :=
  if path.toList.contains '\x00' then .error .nulInName else .ok ()

/-- Refuses a path under which no file can be opened, wherever it would lead. -/
def checkPath (path : String) : Except FileFault Unit := do
  checkName path
  if path.utf8ByteSize > pathLimit then throw .nameTooLong

/-! ## File systems -/

/-- What can be asked of a file system. -/
structure FileSystem (m : Type → Type) where
  /-- Where a path leads; everything on the way must exist. -/
  locate : String → m (Except FileFault Location)
  /-- What the file at a location holds. -/
  read : Location → m (Except FileFault String)

namespace FileSystem

variable {m : Type → Type} [Monad m]

/-- Where a path leads, if it is one. Only its names are limited in length: what is found counts by
its location. -/
def find (fs : FileSystem m) (path : String) : m (Except FileFault Location) :=
  match checkName path with
  | .ok () => fs.locate path
  | .error fault => return .error fault

def readPath (fs : FileSystem m) (path : String) : m (Except FileFault String) := do
  match checkPath path with
  | .error fault => return .error fault
  | .ok () =>
    match ← fs.locate path with
    | .ok location => fs.read location
    | .error fault => return .error fault

end FileSystem

end EmailMarkup.Files
