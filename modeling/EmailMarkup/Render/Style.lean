import EmailMarkup.Cascade
import EmailMarkup.Layout.Box
/-!
# Inline styles

Components write their styles as lists of properties with values. A property without a value is left
out.
-/
namespace EmailMarkup.Render

open EmailMarkup.Layout

def styleText (l : List (String × String)) : String :=
  String.join ((l.filter fun e => !e.2.isEmpty).map fun (property, value) =>
    property ++ ":" ++ value ++ ";")

/-- Properties with the values that attributes of the same names have. -/
def ownValues (c : Cascade) (names : List String) : List (String × String) :=
  names.map fun name => (name, c.getD name "")

/-- Whether a border draws anything. -/
def isVisibleBorder (value : String) : Bool := !value.isEmpty && value != "none"

/-- A border property with the value of an attribute, unless it draws nothing. -/
def borderValue (c : Cascade) (property name : String) : String × String :=
  let value := c.getD name ""
  (property, if isVisibleBorder value then value else "")

def borders : List String := ["border", "border-bottom", "border-left", "border-right", "border-top"]

def paddings : List String :=
  ["padding", "padding-bottom", "padding-left", "padding-right", "padding-top"]

/-- The box of an element, by the shorthand of its padding. -/
def box (c : Cascade) : Box :=
  .ofAttributes (some (c.getD "padding" "0")) (some (c.getD "border" "none")) (c.get? "border-left")
    (c.get? "border-right")

/-- One side of the padding: by its own attribute if it has one. -/
def side (c : Cascade) (name : String) (shorthand : Float) : Float :=
  match c.nonEmpty? name with
  | some value => pixels value 0
  | none => shorthand

/-- The box of an element, where each side of the padding may have its own attribute. -/
def fullBox (c : Cascade) : Box :=
  let b := box c
  { b with
    padding := ⟨side c "padding-top" b.padding.top, side c "padding-right" b.padding.right,
      side c "padding-bottom" b.padding.bottom, side c "padding-left" b.padding.left⟩ }

/-- A double as a whole number of pixels. -/
def wholeText (x : Float) : String := toString (Number.truncate x)

end EmailMarkup.Render
