/-!
# Where a component is rendered

A parent derives the surroundings of each child from its own, so siblings never see each other's
changes.
-/
namespace EmailMarkup

/-- What a component knows about the place it is rendered in. -/
structure Surroundings where
  /-- The width it may take, in pixels. -/
  width : Float
  /-- Its width on wide screens, as its section or group gives it. -/
  columnSpec : Option String := none
  /-- Its place among its siblings. -/
  index : Nat := 0
  isFirst : Bool := true
  isLast : Bool := true
  insideWrapper : Bool := false
  insideGroup : Bool := false

namespace Surroundings

def withWidth (s : Surroundings) (width : Float) : Surroundings := { s with width }

def column (s : Surroundings) (width : Float) (spec : String) : Surroundings :=
  { s with width, columnSpec := some spec }

/-- The surroundings of one of `count` children. -/
def child (s : Surroundings) (index count : Nat) : Surroundings :=
  { s with index, isFirst := index == 0, isLast := index + 1 == count }

def wrapper (s : Surroundings) (inside : Bool) : Surroundings := { s with insideWrapper := inside }

def group (s : Surroundings) (inside : Bool) : Surroundings := { s with insideGroup := inside }

end Surroundings

/-- The `n`th identifier that begins with `stem`. -/
def uniqueId (stem : String) (n : Nat) : String := stem ++ "-" ++ toString n

end EmailMarkup
