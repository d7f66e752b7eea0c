import EmailMarkup.Template.Entity
import EmailMarkup.Template.Mark
import EmailMarkup.Text.Blank
/-!
# Protecting author content

Some tags hold free HTML, CSS or text that strict markup would reject. Before a template is read,
the content of these *ending tags* is wrapped as verbatim text (CDATA), and named characters become
numeric references everywhere outside verbatim text. The content itself comes out of the reader as
its author wrote it: an end mark of verbatim text inside it is split over two sections.
-/
namespace EmailMarkup.Template

open EmailMarkup.Text

/-- The tags whose content is taken as it stands. -/
def endingTags : List String :=
  ["mj-text", "mj-button", "mj-table", "mj-raw", "mj-navbar-link", "mj-accordion-title",
    "mj-accordion-text", "mj-style", "mj-html-attribute"]

def isEndingTag (tag : String) : Bool := endingTags.contains tag

/-! ## Blocks -/

/-- Whether a text begins with `tag` and the name ends there. -/
def namesTag (tag : String) (s : List Char) : Bool :=
  match strip? tag.toList s with
  | some (c :: _) => c == '>' || isAsciiBlank c
  | _ => false

/-- Whether a text begins with the end tag of `tag`. -/
def closesTag (tag : String) (s : List Char) : Bool :=
  match strip? (endTagOpen ++ tag.toList) s with
  | some r =>
    match r.dropWhile isAsciiBlank with
    | '>' :: _ => true
    | _ => false
  | none => false

/-- What precedes the first suffix of a text in `p`. -/
def textBefore? (p : List Char → Bool) (s : List Char) : Option (List Char) :=
  (cutBy (fun s => if p s then some s else none) s).map Prod.fst

/-- The start tag and the content of an ending tag. -/
structure Block where
  opening : List Char
  content : List Char

/-- The ending tag at the front of a text. A start tag reaches to the first `>` and must not close
itself; the content reaches to the first end tag. -/
def endingBlock? : List Char → Option Block
  | '<' :: r => do
    let tag ← endingTags.find? fun tag => namesTag tag r
    let (head, afterOpening) ← cut tagClose r
    if endsWith ['/'] head then none
    else
      let content ← textBefore? (closesTag tag) afterOpening
      return ⟨'<' :: head ++ tagClose, content⟩
  | _ => none

/-! ## The two passes -/

/-- An end mark of verbatim text, split over two sections of it. -/
def cdataSplit : List Char := [']', ']'] ++ cdataClose ++ cdataOpen ++ ['>']

/-- The content of an ending tag as verbatim text. Empty content, and content that begins as
verbatim text, stays as it is. -/
def wrapContent (content : List Char) : List Char :=
  if content.isEmpty || startsWith cdataOpen (trimBoth isBlank content) then content
  else cdataOpen ++ replaceAll cdataClose cdataSplit content ++ cdataClose

/-- Wraps the content of every ending tag. -/
def wrapEnding (s : List Char) : List Char :=
  substitute (fun s => (endingBlock? s).map fun b =>
    (b.opening ++ wrapContent b.content, b.opening.length + b.content.length)) s

/-- The verbatim text at the front of a text, with its marks. Without an end mark it reaches to the
end of the template. -/
def verbatim? (s : List Char) : Option (List Char) := do
  let after ← strip? cdataOpen s
  match cut cdataClose after with
  | none => return s
  | some (inside, _) => return cdataOpen ++ inside ++ cdataClose

/-- Turns named characters outside verbatim text into numeric references. -/
def replaceOutside (s : List Char) : List Char :=
  substitute (fun s => ((verbatim? s).map fun v => (v, v.length)) <|> entity? s) s

/-- A template with its author content protected. -/
def protect (s : List Char) : List Char := replaceOutside (wrapEnding s)

end EmailMarkup.Template
