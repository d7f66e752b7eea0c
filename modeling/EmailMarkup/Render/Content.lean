import EmailMarkup.Render.Markup
import EmailMarkup.Render.Outline
import EmailMarkup.Render.Outlook
import EmailMarkup.Render.Style
import EmailMarkup.Render.TextFlow
/-!
# Content

Components without children: text, images, buttons, dividers, spacers, tables and raw markup.
-/
namespace EmailMarkup.Render

open EmailMarkup.Layout

def contentIndent : Nat := 24

def flow (s : String) : String := String.ofList (flowChars s.toList)

/-- The smaller of two doubles; the other one if one is no number. -/
def smaller (x y : Float) : Float := if y.isNaN || x ≤ y then x else y

def sidePadding (c : Cascade) : Float :=
  let padding := (box c).padding
  padding.left + padding.right

/-! ## Text -/

def textOutline (c : Cascade) : Outline :=
  let style := styleText <|
    ownValues c ["font-family", "font-size", "font-style", "font-weight", "letter-spacing",
      "line-height"] ++
    [("text-align", c.getD "align" "")] ++
    ownValues c ["text-decoration", "text-transform", "color", "height"]
  let content := flow c.node.innerMarkup
  let indent := if (Text.dropEnd? "\n" content).isSome then spaces contentIndent else ""
  { opening := spaces contentIndent ++ startTag "div" [("style", style)] ++ content ++ indent ++ "</div>" }

/-! ## Images -/

/-- The width of an image: its own if it has one, but no more than there is room for. -/
def imageWidth (c : Cascade) (s : Surroundings) : Float :=
  let available := s.width - sidePadding c
  match c.nonEmpty? "width" with
  | some width => smaller (toPixels width s.width) available
  | none => available

def imageTag (ctx : Context) (c : Cascade) (width : String) : String :=
  let height := c.getD "height" "auto"
  let style := styleText [("border", c.getD "border" "0"), ("border-radius", c.getD "border-radius" ""),
    ("display", "block"), ("outline", "none"), ("text-decoration", "none"), ("height", height),
    ("width", "100%"), ("font-size", "13px")]
  "<img" ++ attributeText (
    [("alt", ctx.escape (c.getD "alt" "")), ("src", ctx.escape (c.getD "src" ""))] ++
    optional "srcset" ((c.nonEmpty? "srcset").map fun l => ctx.escape (Text.replace l ", " ",\n")) ++
    optional "sizes" ((c.nonEmpty? "sizes").map ctx.escape) ++
    [("style", style)] ++
    optional "title" ((c.nonEmpty? "title").map ctx.escape) ++
    [("width", width), ("height", ctx.escape height)]) ++ " />"

/-- An image, in a link if it has an address. -/
def imageOutline (ctx : Context) (c : Cascade) (s : Surroundings) : Outline :=
  let width := wholeText (imageWidth c s)
  let image := imageTag ctx c width
  let fluid := c.get? "fluid-on-mobile" == some "true"
  let fluidClass := if fluid then [("class", "mj-full-width-mobile")] else []
  let content :=
    match c.nonEmpty? "href" with
    | some address =>
      line (contentIndent + 8) (startTag "a" ([("href", ctx.link address),
        ("target", ctx.escape (c.getD "target" "_blank"))] ++
        optional "title" ((c.nonEmpty? "title").map ctx.escape))) ++
      line (contentIndent + 10) image ++
      line (contentIndent + 8) "</a>"
    | none => line (contentIndent + 8) image
  { opening :=
      openCell contentIndent
        (tableTag [] ([("style", "border-collapse:collapse;border-spacing:0px;")] ++ fluidClass))
        (startTag "td" ([("style", s!"width:{width}px;")] ++ fluidClass)) ++
      content ++ closeCell contentIndent
    effects := if fluid then [.fluidImage] else [] }

/-! ## Buttons -/

/-- The width of the label of a button whose width is given in pixels. -/
def labelWidth (c : Cascade) (s : Surroundings) (padding : String) : String :=
  match c.nonEmpty? "width" with
  | none => ""
  | some width =>
    if (Text.dropEnd? "%" width).isSome then ""
    else
      let padding := Edges.parse padding
      wholeText (toPixels width s.width - padding.left - padding.right) ++ "px"

def buttonOutline (ctx : Context) (c : Cascade) (s : Surroundings) : Outline :=
  let background := c.getD "background-color" "#414141"
  let radius := c.getD "border-radius" "3px"
  let padding := c.getD "inner-padding" "10px 25px"
  let cellStyle := styleText <|
    [("border", c.getD "border" "none")] ++
    ["border-bottom", "border-left", "border-right", "border-top"].map (fun n => borderValue c n n) ++
    [("border-radius", radius), ("cursor", "auto"), ("font-style", c.getD "font-style" ""),
      ("mso-padding-alt", padding), ("background", background)]
  let linkStyle := styleText [("display", "inline-block"), ("width", labelWidth c s padding),
    ("background", background), ("color", c.getD "color" "#ffffff"),
    ("font-family", c.getD "font-family" Builtin.fontFamily), ("font-size", c.getD "font-size" "13px"),
    ("font-style", c.getD "font-style" ""), ("font-weight", c.getD "font-weight" "normal"),
    ("line-height", c.getD "line-height" "120%"), ("letter-spacing", c.getD "letter-spacing" ""),
    ("margin", "0"), ("text-decoration", c.getD "text-decoration" "none"),
    ("text-transform", c.getD "text-transform" "none"), ("padding", padding),
    ("mso-padding-alt", "0px"), ("border-radius", radius)]
  let tableStyle := styleText [("border-collapse", "separate"), ("width", c.getD "width" ""),
    ("line-height", "100%")]
  let label := Text.trim (String.ofList (collapse c.node.innerMarkup.toList))
  let linkTag := startTag "a" ([("href", ctx.link (c.getD "href" "#"))] ++
    optional "rel" ((c.nonEmpty? "rel").map ctx.escape) ++
    [("style", linkStyle), ("target", ctx.escape (c.getD "target" "_blank"))])
  { opening :=
      openCell contentIndent (tableTag [] [("style", tableStyle)])
        (startTag "td" [("align", "center"), ("bgcolor", ctx.escape background),
          ("role", "presentation"), ("style", cellStyle),
          ("valign", ctx.escape (c.getD "vertical-align" "middle"))]) ++
      line (contentIndent + 8) (linkTag ++ " " ++ label ++ " </a>") ++
      closeCell contentIndent }

/-! ## Dividers and spacers -/

def dividerMargin (align : String) : String :=
  match align with
  | "left" => "0px"
  | "right" => "0px 0px 0px auto"
  | _ => "0px auto"

/-- The width of a divider in pixels. -/
def dividerWidth (c : Cascade) (s : Surroundings) (width : String) : Float :=
  let padding := Edges.parse (c.getD "padding" "")
  let available := s.width - side c "padding-left" padding.left - side c "padding-right" padding.right
  match Text.dropEnd? "%" width with
  | some share => available * pixels share 100 / 100
  | none => toPixels width s.width

def dividerOutline (ctx : Context) (c : Cascade) (s : Surroundings) : Outline :=
  let border := c.getD "border-style" "solid" ++ " " ++ c.getD "border-width" "4px" ++ " " ++
    c.getD "border-color" "#000000"
  let width := c.getD "width" "100%"
  let align := c.getD "align" "center"
  let style (width : String) := styleText [("border-top", border), ("font-size", "1px"),
    ("margin", dividerMargin align), ("width", width)]
  let outlookWidth := wholeText (dividerWidth c s width) ++ "px"
  { opening :=
      line contentIndent (startTag "p" [("style", style width)]) ++ line contentIndent "</p>" ++
      spaces contentIndent ++ outlookOpen ++ "<table" ++
      attributeText [("align", ctx.escape align), ("border", "0"), ("cellpadding", "0"),
        ("cellspacing", "0"), ("style", style outlookWidth), ("role", "presentation"),
        ("width", outlookWidth)] ++
      " ><tr><td style=\"height:0;line-height:0;\"> &nbsp;\n</td></tr></table>" ++ outlookClose }

def spacerOutline (c : Cascade) : Outline :=
  let height := c.getD "height" "0px"
  let style := styleText [("height", height), ("line-height", height)]
  { opening := spaces contentIndent ++ startTag "div" [("style", style)] ++ "&#8202;</div>" }

/-! ## Markup of the author's -/

/-- A table, whose rows are the author's. -/
def tableOutline (ctx : Context) (c : Cascade) : Outline :=
  let width := c.getD "width" "100%"
  let style := styleText [("color", c.getD "color" "#000000"),
    ("font-family", c.getD "font-family" Builtin.fontFamily), ("font-size", c.getD "font-size" "13px"),
    ("line-height", c.getD "line-height" "22px"), ("table-layout", c.getD "table-layout" "auto"),
    ("width", width), ("border", c.getD "border" "none")]
  { opening :=
      startTag "table" [("cellpadding", ctx.escape (c.getD "cellpadding" "0")),
        ("cellspacing", ctx.escape (c.getD "cellspacing" "0")), ("width", ctx.escape width),
        ("border", "0"), ("style", style)] ++ "\n" ++ c.node.innerMarkup ++ "</table>\n" }

/-- Raw markup. It can ask to go before everything else. -/
def rawOutline (c : Cascade) : Outline :=
  if c.getD "position" "" == "file-start" then { effects := [.fileStart c.node.innerMarkup] }
  else { opening := c.node.innerMarkup }

end EmailMarkup.Render
