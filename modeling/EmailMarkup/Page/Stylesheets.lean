import EmailMarkup.Head.StyleBook
import EmailMarkup.Render.Markup
/-!
# Style elements of a page

The rules that every mail has, the widths of columns on wide screens, and the styles of the author's
with a new indentation.
-/
namespace EmailMarkup.Page

open EmailMarkup.Head
open EmailMarkup.Render

/-- Opens the rules of a selector or a condition. -/
def openRule (indent : Nat) (selector : String) : String := line indent (selector ++ " \x7b")

def rule (indent : Nat) (selector : String) (declarations : List String) : String :=
  openRule indent selector ++ String.join (declarations.map fun d => line (indent + 2) (d ++ ";")) ++
    line indent "\x7d"

def styleElement (content : String) : String :=
  line 2 "<style type=\"text/css\">" ++ content ++ line 2 "</style>"

/-- What mail programs set differently is set the same for all. -/
def resetRules : List (String × List String) :=
  [("#outlook a", ["padding: 0"]),
    ("body", ["margin: 0", "padding: 0", "-webkit-text-size-adjust: 100%",
      "-ms-text-size-adjust: 100%"]),
    ("table,\n    td", ["border-collapse: collapse", "mso-table-lspace: 0pt",
      "mso-table-rspace: 0pt"]),
    ("img", ["border: 0", "height: auto", "line-height: 100%", "outline: none",
      "text-decoration: none", "-ms-interpolation-mode: bicubic"]),
    ("p", ["display: block", "margin: 13px 0"])]

def resetStyles : String :=
  styleElement (String.join (resetRules.map fun (selector, declarations) =>
    rule 4 selector declarations ++ "\n"))

/-! ## Column widths -/

/-- The rules for column widths, with a blank line between two of them. -/
def columnRules (indent : Nat) (scope : String) (queries : List MediaQuery) : String :=
  "\n".intercalate (queries.map fun q =>
    rule indent (scope ++ "." ++ q.className)
      [s!"width: {q.width}{q.unit} !important", s!"max-width: {q.width}{q.unit}"])

def columnStyles (breakpoint : String) (queries : List MediaQuery) : String :=
  if queries.isEmpty then ""
  else
    styleElement (openRule 4 s!"@media only screen and (min-width:{breakpoint})" ++
      columnRules 6 "" queries ++ line 4 "\x7d" ++ "\n") ++
    line 2 s!"<style media=\"screen and (min-width:{breakpoint})\">" ++
    columnRules 4 ".moz-text-html " queries ++ "\n" ++ line 2 "</style>"

/-! ## Styles of the author's -/

/-- Indents lines by the braces that are open. -/
def indentLines : Nat → List (List Char) → String
  | _, [] => ""
  | depth, l :: rest =>
    let l := Text.trimBoth Text.isBlank l
    if l.isEmpty then "\n" ++ indentLines depth rest
    else
      let depth := if l.head? == some '\x7d' then depth - 1 else depth
      line (4 + 2 * depth) (String.ofList l) ++
        indentLines (if l.getLast? == some '\x7b' then depth + 1 else depth) rest

def indentStyle (css : String) : String :=
  indentLines 0 (Text.pieces (· == '\n') css.toList) ++ "\n"

/-- The rules for images that take the full width of small screens. -/
def fluidRules : String :=
  openRule 4 "@media only screen and (max-width:479px)" ++
    rule 6 "table.mj-full-width-mobile" ["width: 100% !important"] ++ "\n" ++
    rule 6 "td.mj-full-width-mobile" ["width: auto !important"] ++ line 4 "\x7d" ++ "\n"

def componentStyles (b : StyleBook) : String :=
  if b.fluidImages || !b.componentStyles.isEmpty then
    styleElement ((if b.fluidImages then fluidRules else "") ++
      String.join (b.componentStyles.map indentStyle))
  else ""

def authorStyles (b : StyleBook) : String :=
  String.join (b.styles.map fun css => styleElement (indentStyle css))

end EmailMarkup.Page
