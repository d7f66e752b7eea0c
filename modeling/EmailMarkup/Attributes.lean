/-!
# Attributes

The attributes of an element: names with values, in the order in which the names first came. Setting
a name again changes its value and keeps its place.
-/
namespace EmailMarkup

/-- Attribute names and values in order of first insertion. -/
structure Attributes where
  entries : List (String × String) := []
  deriving DecidableEq, Repr, Inhabited

namespace Attributes

def empty : Attributes := ⟨[]⟩

def get? (a : Attributes) (name : String) : Option String := a.entries.lookup name

/-- Whether `name` is set, be it to the empty text. -/
def contains (a : Attributes) (name : String) : Bool := a.entries.any fun e => e.1 == name

/-- Sets the value of the first entry for `name`, or adds one at the end. -/
def setIn (name value : String) : List (String × String) → List (String × String)
  | [] => [(name, value)]
  | (n, v) :: rest => if n = name then (n, value) :: rest else (n, v) :: setIn name value rest

def insert (a : Attributes) (name value : String) : Attributes := ⟨setIn name value a.entries⟩

/-- Removes the first entry for `name`. -/
def dropIn (name : String) : List (String × String) → List (String × String)
  | [] => []
  | (n, v) :: rest => if n = name then rest else (n, v) :: dropIn name rest

def erase (a : Attributes) (name : String) : Attributes := ⟨dropIn name a.entries⟩

/-- Sets every attribute of `b` in turn. -/
def merge (a b : Attributes) : Attributes :=
  b.entries.foldl (fun acc e => acc.insert e.1 e.2) a

/-- The attributes given by a list of pairs, a later pair of a name winning over an earlier one. -/
def ofList (l : List (String × String)) : Attributes :=
  l.foldl (fun acc e => acc.insert e.1 e.2) empty

/-- The attributes whose name is not in `names`. -/
def without (a : Attributes) (names : List String) : Attributes :=
  ⟨a.entries.filter fun e => !names.contains e.1⟩

def isEmpty (a : Attributes) : Bool := a.entries.isEmpty

end Attributes

end EmailMarkup
