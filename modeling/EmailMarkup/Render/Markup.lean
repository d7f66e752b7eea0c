import EmailMarkup.Cascade
/-!
# Lines of HTML

The HTML of a mail is written line by line. Tables are only there for the layout.
-/
namespace EmailMarkup.Render

def spaces (n : Nat) : String := String.ofList (List.replicate n ' ')

def line (indent : Nat) (s : String) : String := spaces indent ++ s ++ "\n"

/-- The attributes of a tag, each with the space before it. The values stand as they are. -/
def attributeText (l : List (String × String)) : String :=
  String.join (l.map fun (name, value) => " " ++ name ++ "=\"" ++ value ++ "\"")

def optional (name : String) (value : Option String) : List (String × String) :=
  (value.map fun v => (name, v)).toList

def startTag (tag : String) (l : List (String × String)) : String := "<" ++ tag ++ attributeText l ++ ">"

/-- The start tag of a table, with more attributes before and after those of every layout table. -/
def tableTag (before after : List (String × String)) : String :=
  startTag "table" (before ++ [("border", "0"), ("cellpadding", "0"), ("cellspacing", "0"),
    ("role", "presentation")] ++ after)

/-- The lines that open a table of one cell. -/
def openCell (indent : Nat) (table cell : String) : String :=
  line indent table ++ line (indent + 2) "<tbody>" ++ line (indent + 4) "<tr>" ++
    line (indent + 6) cell

/-- The lines that close a table of one cell. The last line is left open. -/
def closeCell (indent : Nat) : String :=
  line (indent + 6) "</td>" ++ line (indent + 4) "</tr>" ++ line (indent + 2) "</tbody>" ++
    (spaces indent ++ "</table>")

end EmailMarkup.Render
