import EmailMarkup.Render.Background
import EmailMarkup.Render.Column
/-!
# Sections and wrappers

Both take a full row. Most stand in a centred box of limited width; a full-width one stretches a
table over the window and centres its content there. A section inside a wrapper has neither a box nor
a background of its own.
-/
namespace EmailMarkup.Render

open EmailMarkup.Layout

/-- What takes a full row. -/
inductive Row where
  | sectionRow
  | wrapper
  deriving DecidableEq, Repr

namespace Row

def borders : Row → List String
  | sectionRow => Render.borders
  | wrapper => ["border"]

def paddings : Row → List String
  | sectionRow => Render.paddings
  | wrapper => ["padding"]

def cellStyle (row : Row) (c : Cascade) : String :=
  styleText <|
    row.borders.map (fun n => borderValue c n n) ++
    [("border-radius", c.getD "border-radius" ""), ("direction", c.getD "direction" "ltr"),
      ("font-size", "0px")] ++
    ownValues c row.paddings ++
    [("text-align", c.getD "text-align" "center")]

def cell (row : Row) (c : Cascade) : String := startTag "td" [("style", row.cellStyle c)]

/-- Opens the rectangle that shows the background image in Outlook. -/
def rectangle (row : Row) (width : RectangleWidth) (b : Background) : String :=
  match row with
  | sectionRow => sectionRectangle width b
  | wrapper => wrapperRectangle width b

end Row

def rectangleClose : String := "</v:textbox></v:rect>"

def centredTable (background : Option String) (style : List (String × String)) : String :=
  tableTag ([("align", "center")] ++ optional "background" background) [("style", styleText style)]

/-- A background without an image. -/
def colorStyles (color : String) : List (String × String) :=
  [("background", color), ("background-color", color)]

/-! ## Boxes around the content -/

/-- Puts content into a centred box that shows a background image. -/
def imageBox (ctx : Context) (c : Cascade) (row : Row) (b : Background) (content : Outline) : Outline :=
  let box := styleText (b.styles ++ [("margin", "0px auto"), ("max-width", s!"{ctx.width}px")])
  let table := centredTable (ctx.escape b.address) (b.styles ++ [("width", "100%")])
  content.within
    (row.rectangle (.pixels ctx.width) b ++ outlookClose ++ "\n" ++
      line 4 (startTag "div" [("style", box)]) ++
      line 6 (startTag "div" [("style", "line-height:0;font-size:0;")]) ++
      openCell 8 table (row.cell c))
    (closeCell 8 ++ "\n" ++ line 6 "</div>" ++ line 4 "</div>" ++
      line 4 (outlookOpen ++ rectangleClose ++ cellTableClose ++ outlookClose))

/-- Puts content into a centred box without an image. -/
def plainBox (ctx : Context) (c : Cascade) (row : Row) (b : Background) (content : Outline) : Outline :=
  let radius := c.getD "border-radius" ""
  let unlessSharp (value : String) := if radius.isEmpty then "" else value
  let box := styleText (colorStyles b.color ++ [("margin", "0px auto"),
    ("max-width", s!"{ctx.width}px"), ("border-radius", radius), ("overflow", unlessSharp "hidden")])
  let table := centredTable none (colorStyles b.color ++ [("width", "100%"),
    ("border-collapse", unlessSharp "separate")])
  content.within
    (outlookClose ++ "\n" ++ line 4 (startTag "div" [("style", box)]) ++ openCell 6 table (row.cell c))
    (closeCell 6 ++ "\n" ++ line 4 "</div>" ++ line 4 (outlookOpen ++ cellTableClose ++ outlookClose))

def centredBox (ctx : Context) (c : Cascade) (row : Row) (content : Outline) : Outline :=
  let b := Background.ofCascade c
  let box := if b.address.isEmpty then plainBox else imageBox
  (box ctx c row b content).within
    (spaces 4 ++ outlookOpen ++ cellTableOpen ctx.width (ctx.classes c) (ctx.escape b.color)) ""

/-- Puts content into a table as wide as the window. A wrapper shows no image there. -/
def windowBox (ctx : Context) (c : Cascade) (row : Row) (content : Outline) : Outline :=
  let b := Background.ofCascade c
  let image := row == .sectionRow && !b.address.isEmpty
  let outer :=
    if image then centredTable (ctx.escape b.address) (b.styles ++ [("width", "100%")])
    else centredTable none (colorStyles b.color ++ [("width", "100%")])
  let opening := cellTableOpen ctx.width (ctx.classes c) (ctx.escape b.color)
  let box := startTag "div" [("style", s!"margin:0px auto;max-width:{ctx.width}px;")]
  let table := centredTable none [("width", "100%")]
  let indent := if image then 16 else 14
  let inner := content.within (openCell indent table (row.cell c)) (closeCell indent ++ "\n")
  if image then
    inner.within
      (openCell 4 outer "<td>" ++
        line 12 (outlookOpen ++ row.rectangle .window b ++ opening ++ outlookClose) ++ line 12 box ++
        line 14 (startTag "div" [("style", "line-height:0;font-size:0;")]))
      (line 14 "</div>" ++ line 12 "</div>" ++
        line 12 (outlookOpen ++ cellTableClose ++ rectangleClose ++ outlookClose) ++ closeCell 4 ++ "\n")
  else
    inner.within
      (openCell 4 outer "<td>" ++ line 12 (outlookOpen ++ opening ++ outlookClose) ++ line 12 box)
      (line 12 "</div>" ++ line 12 (outlookOpen ++ cellTableClose ++ outlookClose) ++
        closeCell 4 ++ "\n")

/-- Puts content into the box that a row asks for. -/
def rowBox (ctx : Context) (c : Cascade) (row : Row) (content : Outline) : Outline :=
  if c.get? "full-width" == some "full-width" then windowBox ctx c row content
  else centredBox ctx c row content

/-! ## Sections -/

/-- Whether a child of a section stands beside its siblings. -/
def isColumn (n : Node) : Bool := n.hasTag columnTag || n.hasTag groupTag

/-- The cell of a column in Outlook. -/
def columnCell (ctx : Context) (classes : String) (n : Node) (width : Float) : String :=
  let align :=
    if n.hasTag groupTag then ""
    else "vertical-align:" ++ (ctx.cascade n .column).getD "vertical-align" "top" ++ ";"
  outlookCell [("class", classes), ("style", s!"{align}width:{Number.widthText width}px;")]

/-- The columns and groups of a section, side by side. -/
def sectionColumns (ctx : Context) (c : Cascade) (s : Surroundings) : Outline :=
  let columns := c.node.children.filter isColumn
  if columns.isEmpty then
    { opening := line 14 (outlookOpen ++ plainTable ++ "<tr></tr></table>" ++ outlookClose) }
  else
    let declared := columns.map (declaredWidth ctx)
    let widths := columnPixels declared (s.width - (fullBox c).horizontal) .equalPercentage
    let specs := columnSpecs declared
    let place (i : Nat) (n : Node) : Placement :=
      if isColumn n then
        let width := widths.getD i 0
        .child (columnCell ctx (ctx.classes c) n width)
          ((s.column width (specs.getD i "")).child i columns.length)
          (spaces 14 ++ outlookOpen ++ "</td>")
      else .skip
    { opening := spaces 14 ++ outlookOpen ++ plainTable ++ "<tr>"
      children := placeChildren place 0 c.node.children
      closing := "</tr></table>" ++ outlookClose ++ "\n" }

def sectionOutline (ctx : Context) (c : Cascade) (s : Surroundings) : Outline :=
  let columns := sectionColumns ctx c s
  if s.insideWrapper then
    let box := s!"margin:0px auto;max-width:{wholeText s.width}px;"
    columns.within
      (line 14 (startTag "div" [("style", box)]) ++
        openCell 16 (centredTable none [("width", "100%")]) (Row.sectionRow.cell c))
      (closeCell 16 ++ "\n" ++ line 14 "</div>")
  else rowBox ctx c .sectionRow columns

/-! ## Wrappers -/

/-- Opens a row of a wrapper in Outlook. -/
def wrapperRow (width : Nat) (inner : Int) : String :=
  s!"<tr><td class=\"\" width=\"{width}px\" ><table align=\"center\" border=\"0\" cellpadding=\"0\" " ++
    s!"cellspacing=\"0\" class=\"\" role=\"presentation\" style=\"width:{inner}px;\" width=\"{inner}\" >" ++
    s!"<tr><td style=\"{cellStyle}\">" ++ outlookClose ++ "\n"

/-- The children of a wrapper, one below the other. -/
def wrapperItems (ctx : Context) (c : Cascade) (s : Surroundings) : Outline :=
  let count := c.node.elementChildren.length
  if count = 0 then { opening := line 14 (outlookOpen ++ plainTable ++ "</table>" ++ outlookClose) }
  else
    let width := Number.truncate (Float.ofNat ctx.width - (fullBox c).horizontal)
    let row := wrapperRow ctx.width width
    let inner := (s.withWidth (Float.ofInt width)).wrapper true
    let place (i : Nat) (n : Node) : Placement :=
      if n.isElement then
        .child "" (inner.child i count) (spaces 14 ++ outlookOpen ++ "</td></tr></table></td></tr>" ++
          (if i + 1 < count then row else "</table>" ++ outlookClose ++ "\n"))
      else .skip
    { opening := spaces 14 ++ outlookOpen ++ plainTable ++ row
      children := placeChildren place 0 c.node.children }

def wrapperOutline (ctx : Context) (c : Cascade) (s : Surroundings) : Outline :=
  rowBox ctx c .wrapper (wrapperItems ctx c s)

end EmailMarkup.Render
