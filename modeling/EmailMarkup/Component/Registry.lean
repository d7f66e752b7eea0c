import EmailMarkup.Cascade
import EmailMarkup.Component.Builtin
import EmailMarkup.Error
import EmailMarkup.Head.Basic
import EmailMarkup.Surroundings
import EmailMarkup.Text.Quoted
/-!
# Components by tag

A caller can add components of its own, and a component of the caller's wins over a built-in one of
the same tag. Once the registry is frozen nothing can be added.
-/
namespace EmailMarkup

/-- A component of the caller's. It has no children of its own and writes one piece of HTML. The state
is the number of the next identifier. -/
structure Custom where
  /-- Values of its attributes when the template gives none. -/
  defaults : List (String × String) := []
  render : Head → Cascade → Surroundings → StateT Nat (Except Error) String

/-- What a tag stands for. -/
inductive Component where
  | builtin (b : Builtin)
  | custom (c : Custom)

/-- The components of the caller's, and whether more can be added. -/
structure Registry where
  custom : List (String × Custom) := []
  frozen : Bool := false

namespace Registry

/-- Adds a component, in the place of one of the same tag. -/
def register (r : Registry) (tag : String) (c : Custom) : Except Error Registry :=
  if r.frozen then .error (.setting (.frozen tag))
  else .ok { r with custom := (tag, c) :: r.custom.filter fun e => e.1 != tag }

/-- Lets no more components be added. -/
def freeze (r : Registry) : Registry := { r with frozen := true }

def lookup? (r : Registry) (tag : String) : Option Component :=
  match r.custom.lookup tag with
  | some c => some (.custom c)
  | none => (Builtin.ofTag? tag).map .builtin

/-- The tags of the caller's components, in order. -/
def tags (r : Registry) : List String := (r.custom.map Prod.fst).mergeSort fun a b => !(b < a)

def shownList (l : List String) : String := "[" ++ ", ".intercalate (l.map Text.literal) ++ "]"

def shown (r : Registry) : String :=
  "ComponentRegistry \x7b custom: " ++ shownList r.tags ++ ", frozen: " ++ toString r.frozen ++ " \x7d"

end Registry

end EmailMarkup
