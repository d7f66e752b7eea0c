import EmailMarkup.Configuration.Basic
import EmailMarkup.Configuration.Value
import EmailMarkup.Include.Resolver
/-!
# Configuration files

A file can set what has a plain value. What it does not set, or sets to nothing, stays.
-/
namespace EmailMarkup.Configuration

open EmailMarkup.Files

structure File where
  inputSize : Option Nat := none
  nestingDepth : Option Nat := none
  includeDepth : Option Nat := none
  sanitize : Option Bool := none
  language : Option String := none
  direction : Option Direction := none
  /-- The directory that includes come from. -/
  includeRoot : Option String := none
  deriving DecidableEq, Repr, Inhabited

namespace File

/-! ## Reading -/

def names : List String :=
  ["max_input_size", "max_nesting_depth", "max_include_depth", "sanitize_output", "language",
    "direction", "include_root"]

/-- The settings by name. An object names each at most once and no other; an array has all of them
in order. -/
def settings? : Value → Option (List (String × Value))
  | .object members =>
    let given := members.map Prod.fst
    if given.all names.contains && given.eraseDups.length == given.length then some members else none
  | .array items => if items.length == names.length then some (names.zip items) else none
  | _ => none

def number? : Value → Option Nat
  | .number n => some n
  | _ => none

def bool? : Value → Option Bool
  | .bool b => some b
  | _ => none

def string? : Value → Option String
  | .string s => some s
  | _ => none

/-- A direction, by its name or as the only name in an object. -/
def direction? : Value → Option Direction
  | .string s => Direction.ofText? s
  | .object [(s, .null)] => Direction.ofText? s
  | _ => none

/-- A setting that may be missing or null. -/
def setting? {α : Type} (settings : List (String × Value)) (read : Value → Option α) (name : String) :
    Option (Option α) :=
  match settings.lookup name with
  | none | some .null => some none
  | some value => (read value).map some

def ofValue? (value : Value) : Option File := do
  let settings ← settings? value
  return {
    inputSize := ← setting? settings number? "max_input_size"
    nestingDepth := ← setting? settings number? "max_nesting_depth"
    includeDepth := ← setting? settings number? "max_include_depth"
    sanitize := ← setting? settings bool? "sanitize_output"
    language := ← setting? settings string? "language"
    direction := ← setting? settings direction? "direction"
    includeRoot := ← setting? settings string? "include_root" }

def parse (text : String) : Except Error File :=
  match (Value.parse? text).bind ofValue? with
  | some file => .ok file
  | none => .error (.setting .invalidFile)

/-! ## Loading and applying -/

/-- The directory part of a path, if it has one. -/
def directoryOf? (path : String) : Option String :=
  match (Files.components path).dropLast with
  | [] => none
  | [""] => some "/"
  | parts => some ("/".intercalate parts)

/-- Takes a relative directory for includes as relative to the directory of the file. -/
def relativeTo (file : File) (path : String) : File :=
  match directoryOf? path with
  | none => file
  | some directory => { file with includeRoot := file.includeRoot.map (join directory) }

section

variable {m : Type → Type} [Monad m]

def load (fs : FileSystem m) (path : String) : ExceptT Error m File := do
  match ← fs.readPath path with
  | .error fault => throw (.file fault)
  | .ok text =>
    let file ← parse text
    return file.relativeTo path

/-- Puts the settings of a file over a configuration. The directory for includes must exist. -/
def apply (fs : FileSystem m) (file : File) (c : Configuration m) : ExceptT Error m (Configuration m) := do
  let limits : Include.Limits := {
    inputSize := file.inputSize.getD c.limits.inputSize
    nestingDepth := file.nestingDepth.getD c.limits.nestingDepth
    includeDepth := file.includeDepth.getD c.limits.includeDepth }
  let c := { c with
    limits
    sanitize := file.sanitize.getD c.sanitize
    direction := file.direction.getD c.direction }
  let c := (file.language.map c.withLanguage).getD c
  match file.includeRoot with
  | none => return c
  | some root =>
    let base ← Include.baseDirectory fs root
    return { c with resolver := some (Include.fromFiles fs base) }

end

end File

end EmailMarkup.Configuration
