import EmailMarkup.Layout.Columns
import EmailMarkup.Render.Markup
import EmailMarkup.Render.Outline
import EmailMarkup.Render.Outlook
import EmailMarkup.Render.Style
/-!
# Columns and groups

A column gives each of its children a row of a table. A group keeps its columns side by side on small
screens too.
-/
namespace EmailMarkup.Render

open EmailMarkup.Head
open EmailMarkup.Layout

def columnTag : String := Builtin.column.tag

def groupTag : String := Builtin.group.tag

def declaredWidth (ctx : Context) (n : Node) : Option String :=
  let b := if n.hasTag groupTag then Builtin.group else Builtin.column
  (ctx.cascade n b).nonEmpty? "width"

def columnQuery (spec : Option String) : MediaQuery :=
  let (width, unit) := columnWidth spec
  ⟨columnClass spec, width, unit⟩

/-- The box that opens a column or group. -/
def columnBox (spec : Option String) (style : List (String × String)) : String :=
  startTag "div" [("class", columnClass spec ++ " mj-outlook-group-fix"), ("style", styleText style)]

/-! ## Columns -/

def columnStyle (c : Cascade) : List (String × String) :=
  let radius := c.getD "border-radius" ""
  [("background-color", c.getD "background-color" "")] ++ borders.map (fun n => borderValue c n n) ++
    [("border-radius", radius), ("vertical-align", c.getD "vertical-align" "top"),
      ("border-collapse", if radius.isEmpty then "" else "separate")]

/-- The style of the table inside a column with padding. -/
def innerStyle (c : Cascade) : List (String × String) :=
  let radius := c.getD "inner-border-radius" ""
  [("background-color", c.getD "inner-background-color" "")] ++
    borders.map (fun n => borderValue c n ("inner-" ++ n)) ++
    [("border-radius", radius), ("border-collapse", if radius.isEmpty then "" else "separate")]

/-- The style of the cell around a child of a column. -/
def contentStyle (c : Cascade) : List (String × String) :=
  [("background", c.getD "container-background-color" ""), ("font-size", "0px")] ++
    ownValues c paddings ++ [("word-break", "break-word")]

/-- A child of a column in a row of its own. -/
def contentRow (ctx : Context) (indent : Nat) (c : Cascade) (s : Surroundings) : Placement :=
  let cell := startTag "td" (optional "align" ((c.nonEmpty? "align").map ctx.escape) ++
    optional "class" ((c.nonEmpty? "css-class").map ctx.escape) ++
    [("style", styleText (contentStyle c))])
  .child (line indent "<tr>" ++ line (indent + 2) cell) s
    ("\n" ++ line (indent + 2) "</td>" ++ line indent "</tr>")

/-- Where a child of a column goes. Raw markup stands alone, and so does what is unknown. -/
def columnItem (ctx : Context) (indent : Nat) (n : Node) (s : Surroundings) : Placement :=
  match n.tag? with
  | none => .skip
  | some tag =>
    match ctx.registry.lookup? tag with
    | none | some (.builtin .raw) => .child "" s ""
    | some (.builtin b) => contentRow ctx indent (ctx.cascade n b) s
    | some (.custom _) => contentRow ctx indent ⟨n, ctx.head.rules, []⟩ s

def columnItems (ctx : Context) (c : Cascade) (s : Surroundings) (indent : Nat) : Outline :=
  let inner := s.withWidth (s.width - (box c).horizontal)
  let count := c.node.elementChildren.length
  { children := placeChildren (fun i n => columnItem ctx indent n (inner.child i count)) 0 c.node.children }

def columnOutline (ctx : Context) (c : Cascade) (s : Surroundings) : Outline :=
  let width :=
    match s.columnSpec with
    | some spec => if s.insideGroup && (Text.dropEnd? "px" spec).isNone then spec ++ "%" else "100%"
    | none => "100%"
  let opening := line 14 (columnBox s.columnSpec [("font-size", "0px"), ("text-align", "left"),
    ("direction", c.getD "direction" "ltr"), ("display", "inline-block"),
    ("vertical-align", c.getD "vertical-align" "top"), ("width", width)])
  let closing := line 14 "</div>"
  let content :=
    if paddings.any fun name => (c.nonEmpty? name).isSome then
      let table := tableTag [] ([("width", "100%")] ++
        optional "style" ((c.nonEmpty? "border-radius").map fun _ => "border-collapse:separate;"))
      let cell := startTag "td" [("style", styleText (columnStyle c ++ ownValues c paddings))]
      let inner := tableTag [] [("style", styleText (innerStyle c)), ("width", "100%")]
      (columnItems ctx c s 28).within
        (openCell 16 table cell ++ line 24 inner ++ line 26 "<tbody>")
        (line 26 "</tbody>" ++ line 24 "</table>" ++ closeCell 16 ++ "\n")
    else
      let table := tableTag [] [("style", styleText (columnStyle c)), ("width", "100%")]
      (columnItems ctx c s 20).within (line 16 table ++ line 18 "<tbody>")
        (line 18 "</tbody>" ++ line 16 "</table>")
  { content.within opening closing with effects := [.mediaQuery (columnQuery s.columnSpec)] }

/-! ## Groups -/

/-- Where the columns of a group go. -/
def groupColumns (ctx : Context) (c : Cascade) (s : Surroundings) : List Placement :=
  let columns := c.node.children.filter (Node.hasTag columnTag)
  let declared := columns.map (declaredWidth ctx)
  let widths := columnPixels declared s.width .equalRemainder
  let specs := columnSpecs declared
  placeChildren (fun i n =>
    if n.hasTag columnTag then
      let width := widths.getD i 0
      .child (outlookCell [("style", s!"vertical-align:top;width:{wholeText width}px;")])
        (((s.column width (specs.getD i "")).child i columns.length).group true)
        (spaces 16 ++ outlookOpen ++ "</td>")
    else .skip) 0 c.node.children

def groupOutline (ctx : Context) (c : Cascade) (s : Surroundings) : Outline :=
  { opening :=
      line 14 (columnBox s.columnSpec [("font-size", "0"), ("line-height", "0"), ("text-align", "left"),
        ("display", "inline-block"), ("width", "100%"), ("direction", c.getD "direction" "ltr"),
        ("background-color", c.getD "background-color" "")]) ++
      spaces 16 ++ outlookOpen ++
      "<table border=\"0\" cellpadding=\"0\" cellspacing=\"0\" role=\"presentation\" ><tr>"
    children := groupColumns ctx c s
    closing := "</tr></table>" ++ outlookClose ++ "\n" ++ line 14 "</div>"
    effects := [.mediaQuery (columnQuery s.columnSpec)] }

end EmailMarkup.Render
