import EmailMarkup.Files.Basic
import EmailMarkup.Include.Basic
/-!
# Resolvers

Resolvers that serve contents from a list or from the files of a directory, and resolvers that choose
among others.
-/
namespace EmailMarkup.Include

section

variable {m : Type → Type} [Monad m]

/-! ## From a list -/

/-- Serves the contents of a list, the last one for each path. -/
def ofList (contents : List (String × String)) : Resolver m := fun path _ =>
  match contents.reverse.lookup path with
  | some content => return content
  | none => throw (.inclusion (.notInMap path))

/-! ## Choosing -/

/-- Asks one resolver after the other. Only an include error passes on to the next; the last one
stands. -/
def tryEach : List (Resolver m) → Error → Resolver m
  | [], last => fun _ _ => throw last
  | resolve :: rest, _ => fun path context =>
    tryCatch (resolve path context) fun e =>
      if e.kind == .inclusion then tryEach rest e path context else throw e

/-- Asks one resolver after the other; there must be one. -/
def firstOf (resolvers : List (Resolver m)) : Except Error (Resolver m) :=
  if resolvers.isEmpty then .error (.setting .noDelegates)
  else .ok fun path context =>
    tryEach resolvers (.inclusion (.noResolver path)) path context

/-- Asks the first resolver whose leading text the path has, for the rest of the path; the fallback
if there is none. -/
def byLeadingText : List (String × Resolver m) → Option (Resolver m) → Resolver m
  | [], some fallback => fallback
  | [], none => fun path _ => throw (.inclusion (.noRoute path))
  | (lead, resolve) :: rest, fallback => fun path context =>
    match Text.dropStart? lead path with
    | some stripped => resolve stripped context
    | none => byLeadingText rest fallback path context

/-! ## From files -/

open EmailMarkup.Files

/-- Where the directory of a file resolver is; it must exist. -/
def baseDirectory (fs : FileSystem m) (path : String) : ExceptT Error m Location := do
  match ← fs.find path with
  | .ok base => return base
  | .error fault => throw (.file fault)

/-- Serves the files below a directory. Paths are relative to it, and must not lead out of it. -/
def fromFiles (fs : FileSystem m) (base : Location) : Resolver m := fun path _ => do
  if Text.isBlankText path then
    throw (.inclusion .blankPath)
  match ← fs.find (join base.text path) with
  | .error _ => throw (.inclusion (.notFound path))
  | .ok location =>
    if !base.isPrefixOf location then
      throw (.inclusion (.outside path))
    match ← fs.read location with
    | .error fault => throw (.inclusion (.unreadable path fault))
    | .ok content => return content

end

end EmailMarkup.Include
