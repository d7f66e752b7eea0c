import EmailMarkup.Render.Markup
import EmailMarkup.Text.Search
/-!
# Outlook

Outlook on Windows knows neither `max-width` nor inline blocks. Conditional comments give it tables of
a fixed width that other programs do not see.
-/
namespace EmailMarkup.Render

/-- Opens a comment that only Outlook reads. -/
def outlookOpen : String := "<!--[if mso | IE]>"

/-- Closes a comment that only Outlook reads. -/
def outlookClose : String := "<![endif]-->"

def cellTableClose : String := "</td></tr></table>"

/-- The style of cells that only hold a layout. -/
def cellStyle : String := "line-height:0px;font-size:0px;mso-line-height-rule:exactly;"

/-- A table that only holds a layout. -/
def plainTable : String := "<table role=\"presentation\" border=\"0\" cellpadding=\"0\" cellspacing=\"0\">"

/-- Opens a cell that only Outlook reads, around what all programs read. -/
def outlookCell (l : List (String × String)) : String :=
  "<td" ++ attributeText l ++ " >" ++ outlookClose ++ "\n"

/-- Opens a centred table of one cell. -/
def cellTableOpen (width : Nat) (className color : String) : String :=
  let className := if className.isEmpty then "" else className ++ "-outlook"
  let color := if color.isEmpty then "" else s!"bgcolor=\"{color}\" "
  s!"<table align=\"center\" border=\"0\" cellpadding=\"0\" cellspacing=\"0\" class=\"{className}\" " ++
    s!"role=\"presentation\" style=\"width:{width}px;\" width=\"{width}\" {color}><tr>" ++
    s!"<td style=\"{cellStyle}\">"

/-! ## Column classes -/

/-- The class of a column of this width. -/
def columnClass (spec : Option String) : String :=
  let spec := spec.getD "100"
  match Text.dropEnd? "px" spec with
  | some width => "mj-column-px-" ++ width
  | none => "mj-column-per-" ++ Text.replace spec "." "-"

/-- The width and the unit of a column on wide screens. -/
def columnWidth (spec : Option String) : String × String :=
  match spec with
  | none => ("100", "%")
  | some spec => if (Text.dropEnd? "px" spec).isSome then (spec, "") else (spec, "%")

end EmailMarkup.Render
