import EmailMarkup.Attributes
import EmailMarkup.Text.Blank
import EmailMarkup.Text.Nesting
import EmailMarkup.Text.Search
/-!
# Start tags of HTML

A start tag is read leniently and keeps its own text, so that it can be written back as it was, with
another `style` value, or with more attributes. Names are in small letters.
-/
namespace EmailMarkup.Html

open EmailMarkup.Text

structure StartTag where
  name : String
  attributes : Attributes
  /-- As written, from `<` to `>`. -/
  text : List Char
  /-- Where the quoted `style` value stands in the text: its start and its length. -/
  style : Option (Nat × Nat)
  /-- Whether the tag ends with `/>`. -/
  closed : Bool

/-! ## Reading -/

/-- Elements that have no content. -/
def voidElements : List String :=
  ["area", "base", "br", "col", "embed", "hr", "img", "input", "link", "meta", "param", "source",
    "track", "wbr"]

/-- Elements whose content is not markup. -/
def rawElements : List String := ["style", "script"]

/-- Whether an attribute name goes on with `c`. -/
def isNameChar (c : Char) : Bool := c != '=' && c != '/' && !isAsciiBlank c

/-- Attributes read so far, and where the quoted `style` value stands. -/
structure Attribution where
  attributes : Attributes := .empty
  style : Option (Nat × Nat) := none

/-- An attribute value, after the equals sign: the value, what follows it, and whether it is
quoted. A quoted value without a closing quote reaches to the end of the tag. -/
def readValue (s : List Char) : List Char × List Char × Bool :=
  match s with
  | [] => ([], [], false)
  | q :: r =>
    if q == '"' || q == '\'' then
      let value := r.takeWhile (· != q)
      (value, r.drop (value.length + 1), true)
    else
      let value := s.takeWhile fun c => !isAsciiBlank c && c != '>'
      (value, s.drop value.length, false)

/-- Reads the attributes of a start tag. `length` is the length of the tag up to the end of its
attributes, from which places are counted back. The fuel is the length of the text: every step takes
some of it. -/
def readAttributes (length : Nat) : Nat → Attribution → List Char → Attribution
  | 0, found, _ => found
  | fuel + 1, found, s =>
    match s.dropWhile isAsciiBlank with
    | [] => found
    | c :: r =>
      let name := (c :: r).takeWhile isNameChar
      if name.isEmpty then readAttributes length fuel found r
      else
        let key := String.ofList (name.map Char.toLower)
        match ((c :: r).drop name.length).dropWhile isAsciiBlank with
        | '=' :: rest =>
          let s := rest.dropWhile isAsciiBlank
          let (value, rest, quoted) := readValue s
          let style := if quoted && key == "style" then some (length - s.length + 1, value.length)
            else found.style
          readAttributes length fuel
            ⟨found.attributes.insert key (String.ofList value), style⟩ rest
        | rest => readAttributes length fuel ⟨found.attributes.insert key "", found.style⟩ rest

/-- The start tag that stands between `<` and `>`, unless it has no name or is a declaration. -/
def startTag? (inner : List Char) : Option StartTag :=
  let closed := endsWith ['/'] inner
  let content := if closed then inner.dropLast else inner
  let name := content.takeWhile fun c => !isAsciiBlank c
  match name with
  | [] => none
  | c :: _ =>
    if c = '!' then none
    else
      let found := readAttributes (1 + content.length) content.length {} (content.drop name.length)
      some {
        name := String.ofList (name.map Char.toLower)
        attributes := found.attributes
        text := '<' :: inner ++ ['>']
        style := found.style
        closed := closed }

namespace StartTag

/-- Whether the element may have content. -/
def isOpen (t : StartTag) : Bool := !t.closed && !voidElements.contains t.name

/-! ## Writing -/

/-- Where new attributes go: before the `>`, or before the `/>` and the spaces ahead of it. -/
def insertionPoint (t : StartTag) : Nat :=
  let body := t.text.dropLast
  match stripEnd? ['/'] body with
  | some body => (trimEnd (· == ' ') body).length
  | none => body.length

/-- The text of the tag with `new` at the place for attributes. -/
def withText (t : StartTag) (new : List Char) : List Char :=
  t.text.take t.insertionPoint ++ new ++ t.text.drop t.insertionPoint

/-- The text of the tag with another `style` value: in the place of the quoted one if there is one,
else as a new attribute. -/
def withStyle (t : StartTag) (value : List Char) : List Char :=
  match t.style with
  | some (start, length) => t.text.take start ++ value ++ t.text.drop (start + length)
  | none => t.withText (" style=\"".toList ++ value ++ ['"'])

end StartTag

end EmailMarkup.Html
