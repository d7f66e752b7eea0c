import EmailMarkup.Number.Numeral
import EmailMarkup.Text.Blank
import EmailMarkup.Text.Search
/-!
# Lengths

Email layout knows pixels, percentages of the container and bare numbers, which count as pixels.
Reading a length never fails: what is no length gives a default.

Lengths are computed in any `Measure`: doubles when a mail is compiled, exact numbers when its layout
is reasoned about.
-/
namespace EmailMarkup.Layout

open EmailMarkup.Number

/-- Numbers in which lengths are computed. -/
class Measure (α : Type) extends Add α, Sub α, Mul α, Div α where
  /-- A count. -/
  ofNat : Nat → α
  /-- The finite number that a numeral says, if it is one. -/
  ofNumeral? : Numeral → Option α
  /-- The sum of no lengths. -/
  nothing : α

instance : Measure Float where
  ofNat := Float.ofNat
  ofNumeral? n := if isFinite n.toFloat then some n.toFloat else none
  nothing := -0.0

/-- Reads a finite number between blanks. -/
def number? {α : Type} [Measure α] (s : String) : Option α :=
  (Numeral.parse? (Text.trim s)).bind Measure.ofNumeral?

def zero {α : Type} [Measure α] : α := Measure.ofNat 0

def dropUnit (s : String) : String := (Text.dropEnd? "px" s).getD s

/-- `percent` hundredths of `total`. -/
def hundredths {α : Type} [Measure α] (total percent : α) : α :=
  total * percent / Measure.ofNat 100

/-- The pixels of a length: a share of `container` for a percentage, and zero for what is no
length. -/
def toPixels {α : Type} [Measure α] (s : String) (container : α) : α :=
  let s := Text.trim s
  match Text.dropEnd? "%" s with
  | some percent => ((number? percent).map (hundredths container)).getD zero
  | none => (number? (dropUnit s)).getD zero

/-- The pixels of a length without percentages, `default` for a blank or unreadable one. -/
def pixels {α : Type} [Measure α] (s : String) (default : α) : α :=
  let s := Text.trim s
  if s.isEmpty then default else (number? (dropUnit s)).getD default

/-- A whole number of pixels, every `px` in the text left out; `default` if that is no whole
number. -/
def wholePixels (s : String) (default : Int) : Int :=
  (whole? (Text.trim (Text.replace s "px" ""))).getD default

/-! ## Four sides -/

/-- A length on each side of a box. -/
structure Edges where
  top : Float := 0
  right : Float := 0
  bottom : Float := 0
  left : Float := 0

/-- The sides of a shorthand of one to four lengths: all; vertical and horizontal; top, horizontal
and bottom; or clockwise from the top. Further lengths do not count. -/
def Edges.parse (s : String) : Edges :=
  match (Text.words s).map (pixels · (0 : Float)) with
  | [] => {}
  | [all] => ⟨all, all, all, all⟩
  | [vertical, horizontal] => ⟨vertical, horizontal, vertical, horizontal⟩
  | [top, horizontal, bottom] => ⟨top, horizontal, bottom, horizontal⟩
  | top :: right :: bottom :: left :: _ => ⟨top, right, bottom, left⟩

end EmailMarkup.Layout
