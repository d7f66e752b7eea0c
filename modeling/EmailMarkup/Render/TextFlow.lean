import EmailMarkup.Text.Blank
import EmailMarkup.Text.Search
/-!
# Blanks in text

The blanks of a text are collapsed as a browser shows them: a run of blanks is one space. Text that
holds block elements keeps a line for each of them. Spaces that do not break are content.
-/
namespace EmailMarkup.Render

open EmailMarkup.Text

/-- Replaces each run of blanks by one space. The flag says whether a blank stands before. -/
def collapseFrom : Bool → List Char → List Char
  | _, [] => []
  | afterBlank, c :: s =>
    if isAsciiBlank c then
      if afterBlank then collapseFrom true s else ' ' :: collapseFrom true s
    else c :: collapseFrom false s

def collapse (s : List Char) : List Char := collapseFrom false s

/-- Elements that stand on lines of their own. -/
def blockElements : List String :=
  ["ul", "ol", "p", "div", "h1", "h2", "h3", "h4", "h5", "h6", "blockquote", "table", "pre"]

/-- Whether a character ends the name in a tag. -/
def endsTagName (c : Char) : Bool := [' ', '>', '/', '\t', '\n'].contains c

def tagName (tag : List Char) : String :=
  let name := (tag.dropWhile (· == '<')).dropWhile (· == '/')
  String.ofList ((name.takeWhile fun c => !endsTagName c).map Char.toLower)

/-- Whether a tag ends a line. -/
def isLineTag (tag : List Char) : Bool :=
  let name := tagName tag
  blockElements.contains name || name == "li" || name == "br"

/-- Whether a text has the start tag of a block element. -/
def hasBlock (s : List Char) : Bool :=
  let s := s.map Char.toLower
  blockElements.any fun name => occurs ('<' :: name.toList) s

/-- A tag, or the text between two tags. -/
inductive Run where
  | tag (text : List Char)
  | text (content : List Char)
  deriving DecidableEq, Repr

/-- The tags of a text and what stands between them. A tag that is not closed goes to the end. -/
def runsFrom : Nat → List Char → List Run
  | 0, _ => []
  | _, [] => []
  | fuel + 1, '<' :: s =>
    match cut ['>'] s with
    | some (inner, rest) => .tag ('<' :: inner ++ ['>']) :: runsFrom fuel rest
    | none => [.tag ('<' :: s)]
  | fuel + 1, s => .text (s.takeWhile (· != '<')) :: runsFrom fuel (s.dropWhile (· != '<'))

def runs (s : List Char) : List Run := runsFrom s.length s

/-- Writes runs with their blanks collapsed. The flag says whether a line was ended last: a blank run
is then a new line. -/
def writeRuns : Bool → List Run → List Char
  | _, [] => []
  | _, .tag text :: rest => text ++ writeRuns (isLineTag text) rest
  | afterLine, .text content :: rest =>
    let content := collapse content
    if content.all isAsciiBlank then
      (if afterLine then ['\n'] else content) ++ writeRuns afterLine rest
    else content ++ writeRuns false rest

/-- The content of a text. Text that holds block elements has lines of its own. -/
def flowChars (s : List Char) : List Char :=
  let trimmed := trimBoth isAsciiBlank s
  if trimmed.isEmpty then []
  else if !trimmed.contains '<' then trimBoth isAsciiBlank (collapse s)
  else
    let flow := writeRuns false (runs trimmed)
    if hasBlock trimmed then '\n' :: flow ++ ['\n']
    else if flow.contains '\n' then flow ++ ['\n']
    else flow

end EmailMarkup.Render
