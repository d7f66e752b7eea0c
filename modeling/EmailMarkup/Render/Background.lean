import EmailMarkup.Cascade
import EmailMarkup.Number.Numeral
import EmailMarkup.Number.Shortest
import EmailMarkup.Text.Escape
import EmailMarkup.Text.Search
/-!
# Background images

Outlook ignores background images in styles. It gets a rectangle that is filled with the image
instead, whose place is given in its own coordinates.
-/
namespace EmailMarkup.Render

open EmailMarkup.Text

structure Background where
  color : String
  address : String
  /-- The horizontal place, then the vertical one. -/
  position : String
  size : String
  repetition : String

/-- A position with its horizontal part first. Separate parts win if both are there. -/
def normalPosition (position x y : String) : String :=
  if !x.isEmpty && !y.isEmpty then x ++ " " ++ y
  else match words position with
    | [] => "center top"
    | [single] => single ++ " center"
    | first :: second :: _ =>
      if ["top", "bottom"].contains first && ["left", "right", "center"].contains second then
        second ++ " " ++ first
      else first ++ " " ++ second

namespace Background

def ofCascade (c : Cascade) : Background where
  color := c.getD "background-color" ""
  address := c.getD "background-url" ""
  position := normalPosition (c.getD "background-position" "top center")
    (c.getD "background-position-x" "") (c.getD "background-position-y" "")
  size := c.getD "background-size" "auto"
  repetition := c.getD "background-repeat" "repeat"

/-- The background in one property. -/
def shorthand (b : Background) : String :=
  (if b.color.isEmpty then "" else b.color ++ " ") ++
    s!"url('{escapeAddress b.address}') {b.position} / {b.size} {b.repetition}"

/-- The background in all its properties. -/
def styles (b : Background) : List (String × String) :=
  [("background", b.shorthand), ("background-position", b.position),
    ("background-repeat", b.repetition), ("background-size", b.size)]

end Background

/-! ## Coordinates -/

/-- A place in percent. -/
def placePercent (value : String) (fallback : Float) : Float :=
  match value with
  | "left" | "top" => 0
  | "right" | "bottom" => 100
  | "center" => 50
  | other => ((dropEnd? "%" other).bind fun p => Number.float? (trim p)).getD fallback

/-- A place as a fraction, by its name. -/
def placeFraction (value : String) : String :=
  match value with
  | "left" | "top" => "0"
  | "right" | "bottom" => "1"
  | _ => "0.5"

def places (position : String) : String × String :=
  match words position with
  | [] => ("center", "top")
  | [x] => (x, "top")
  | x :: y :: _ => (x, y)

/-! ## Rectangles -/

/-- The width of a rectangle: all of the window, or a number of pixels. -/
inductive RectangleWidth where
  | window
  | pixels (n : Nat)

def RectangleWidth.style : RectangleWidth → String
  | window => "mso-width-percent:1000;"
  | pixels n => s!"width:{n}px;"

/-- Opens a filled rectangle and the box of its content. -/
def rectangle (width : RectangleWidth) (b : Background) (origin fill size : String) : String :=
  let color := if b.color.isEmpty then "" else s!" color=\"{escapeAttribute b.color}\""
  s!"<v:rect style=\"{width.style}\" xmlns:v=\"urn:schemas-microsoft-com:vml\" fill=\"true\" " ++
    s!"stroke=\"false\"><v:fill origin=\"{origin}\" position=\"{origin}\" " ++
    s!"src=\"{escapeAttribute b.address}\"{color} type=\"{fill}\"{size} />" ++
    "<v:textbox style=\"mso-fit-shape-to-text:true\" inset=\"0,0,0,0\">"

/-- The size attributes of a fill. `other` writes a size that has no name. -/
def fillSize (size : String) (other : String → String) : String :=
  match size with
  | "auto" => ""
  | "cover" => " size=\"1,1\" aspect=\"atleast\""
  | "contain" => " size=\"1,1\" aspect=\"atmost\""
  | size => other size

/-- The rectangle of a section. An image of its own size stands at the top centre; else the place of
the image is counted from the middle if it is not repeated, and from the corner if it is. -/
def sectionRectangle (width : RectangleWidth) (b : Background) : String :=
  let (px, py) := places b.position
  let x := placePercent px 50
  let y := placePercent py 0
  let (fill, x, y) :=
    if b.size == "auto" then ("tile", 0.5, 0)
    else if b.repetition == "no-repeat" then ("frame", (x - 50) / 100, (y - 50) / 100)
    else ("tile", x / 100, y / 100)
  let size := fillSize b.size fun size =>
    match words size with
    | [_] => s!" size=\"{escapeAttribute size}\" aspect=\"atmost\""
    | values => " size=\"" ++ escapeAttribute (",".intercalate values) ++ "\""
  rectangle width b (Number.widthText x ++ ", " ++ Number.widthText y) fill size

/-- The rectangle of a wrapper, whose image is always repeated. -/
def wrapperRectangle (width : RectangleWidth) (b : Background) : String :=
  let (x, y) := places b.position
  let size := fillSize b.size fun size =>
    " size=\"" ++ escapeAttribute (replace (trim size) " " ",") ++ "\""
  rectangle width b (placeFraction x ++ ", " ++ placeFraction y) "tile" size

end EmailMarkup.Render
