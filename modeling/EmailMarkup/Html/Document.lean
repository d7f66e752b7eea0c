import EmailMarkup.Forest.Walk
import EmailMarkup.Html.Tag
/-!
# Scanned HTML

HTML is cut into pieces that carry their own text: start tags, end tags, and everything else. Joined
again the pieces give the text back, so an edit that changes some start tags leaves all else as it
was, comments and conditional blocks included. Reading never fails: what cannot be read is kept as
other text.

The elements form a forest. An end tag closes the innermost open element of its name with all that
is open inside; without such an element it closes nothing.
-/
namespace EmailMarkup.Html

open EmailMarkup.Text

inductive Piece where
  | start (tag : StartTag)
  | stop (name : String) (text : List Char)
  | other (text : List Char)

def Piece.text : Piece → List Char
  | start tag => tag.text
  | stop _ text => text
  | other text => text

/-! ## Cutting -/

/-- The text up to and including the first `close`, which is looked for after the first `skip`
characters, and the rest. -/
def through? (skip : Nat) (close s : List Char) : Option (List Char × List Char) :=
  (cut close (s.drop skip)).map fun (before, after) => (s.take skip ++ before ++ close, after)

/-- What is passed over as a whole at the front of a text: `none` if there is no such thing, and
`some none` if there is one without an end. -/
def special? (s : List Char) : Option (Option (List Char × List Char)) :=
  if startsWith ['<', '!', '-', '-'] s then some (through? 4 ['-', '-', '>'] s)
  else if (stripFold? ['<', '!', 'd', 'o', 'c', 't', 'y', 'p', 'e'] s).isSome then
    some (through? 0 ['>'] s)
  else if startsWith ['<', '!', '[', 'C', 'D', 'A', 'T', 'A', '['] s then
    some (through? 9 [']', ']', '>'] s)
  else if startsWith ['<', '?'] s then some (through? 0 ['?', '>'] s)
  else none

/-- The content of a raw element with its end tag, and the rest. -/
def rawContent? (name : String) (s : List Char) : Option (List Char × List Char) := do
  let (before, _) ← cutFold ('<' :: '/' :: name.toList) s
  through? before.length ['>'] s

/-- The pieces that a start tag gives, and the rest. The end tag of a raw element is looked for at
once, because its content is not markup. -/
def startPieces (tag : StartTag) (s : List Char) : List Piece × List Char :=
  if tag.isOpen && rawElements.contains tag.name then
    match rawContent? tag.name s with
    | some (content, rest) => ([.start tag, .stop tag.name content], rest)
    | none => ([.start tag], s)
  else ([.start tag], s)

def readStop (s : List Char) : List Piece × List Char :=
  match through? 0 ['>'] s with
  | none => ([.other s], [])
  | some (text, rest) =>
    let name := (trimBoth isBlank ((text.drop 2).dropLast)).map Char.toLower
    ([.stop (String.ofList name) text], rest)

/-- Reads a start tag; a `>` inside quotes does not end it. -/
def readStart (s : List Char) : List Piece × List Char :=
  match cutOutside ⟨[], []⟩ '>' {} (s.drop 1) with
  | none => ([.other s], [])
  | some (inner, rest) =>
    match startTag? inner with
    | some tag => startPieces tag rest
    | none => ([.other ('<' :: inner ++ ['>'])], rest)

def readAngle (s : List Char) : List Piece × List Char :=
  match special? s with
  | some (some (text, rest)) => ([.other text], rest)
  | some none => ([.other s], [])
  | none => if startsWith ['<', '/'] s then readStop s else readStart s

/-- Cuts HTML into pieces. The fuel is the length of the text: every step takes some of it. -/
def piecesFrom : Nat → List Char → List Piece
  | 0, _ | _, [] => []
  | fuel + 1, c :: s =>
    if c = '<' then
      let (pieces, rest) := readAngle (c :: s)
      pieces ++ piecesFrom fuel rest
    else
      .other (c :: s.takeWhile (· != '<')) :: piecesFrom fuel (s.dropWhile (· != '<'))

/-! ## Elements -/

/-- The elements read so far, and the numbers of those still open, innermost first. -/
structure Building where
  forest : Forest := .empty
  opened : List Nat := []

namespace Building

/-- Adds an element to the innermost open one; it is open itself if it may have content. -/
def add (b : Building) (name : String) (attributes : Attributes) (opens : Bool) : Building :=
  let (forest, id) := b.forest.alloc (.element name attributes)
  let forest := forest.append (b.opened.headD Forest.root) id
  ⟨forest, if opens then id :: b.opened else b.opened⟩

def start (b : Building) (tag : StartTag) : Building := b.add tag.name tag.attributes tag.isOpen

/-- Closes the innermost open element named `name`. -/
def stop (b : Building) (name : String) : Building :=
  match b.opened.dropWhile fun id => b.forest.tag? id != some name with
  | [] => b
  | _ :: outer => { b with opened := outer }

def step (b : Building) : Piece → Building
  | .start tag => b.start tag
  | .stop name _ => b.stop name
  | .other _ => b

end Building

/-- HTML as pieces, with the forest of its elements. The elements are numbered from 1 in the order of
their start tags. -/
structure Document where
  pieces : List Piece
  forest : Forest

namespace Document

def ofChars (html : List Char) : Document :=
  let pieces := piecesFrom html.length html
  ⟨pieces, (pieces.foldl Building.step {}).forest⟩

def parse (html : String) : Document := ofChars html.toList

/-- The numbers of the elements, in document order. -/
def elements (d : Document) : List Nat := d.forest.elements

/-! ## Places -/

/-- The length of a text in UTF-8. -/
def byteLength (s : List Char) : Nat := s.foldl (fun n c => n + c.utf8Size) 0

/-- Where a start tag stands in the text, in bytes. -/
structure Span where
  start : Nat
  stop : Nat
  /-- Start and end of the quoted `style` value. -/
  style : Option (Nat × Nat)
  /-- Where new attributes go. -/
  insert : Nat
  deriving DecidableEq, Repr

/-- Where a start tag stands that begins at `offset`. -/
def spanAt (offset : Nat) (tag : StartTag) : Span where
  start := offset
  stop := offset + byteLength tag.text
  style := tag.style.map fun (start, length) =>
    (offset + byteLength (tag.text.take start), offset + byteLength (tag.text.take (start + length)))
  insert := offset + byteLength (tag.text.take tag.insertionPoint)

/-- Where the start tags stand in pieces that begin at `offset`. -/
def spansFrom : Nat → List Piece → List Span
  | _, [] => []
  | offset, p :: rest =>
    let others := spansFrom (offset + byteLength p.text) rest
    match p with
    | .start tag => spanAt offset tag :: others
    | _ => others

def spans (d : Document) : List Span := spansFrom 0 d.pieces

/-! ## Edits -/

/-- The text of pieces, with every start tag written by `write`, which is given its number. -/
def editFrom (write : Nat → StartTag → List Char) : Nat → List Piece → List Char
  | _, [] => []
  | id, .start tag :: rest => write id tag ++ editFrom write (id + 1) rest
  | id, p :: rest => p.text ++ editFrom write id rest

/-- The text of a document, with every start tag written by `write`, which is given its number. -/
def edit (d : Document) (write : Nat → StartTag → List Char) : List Char :=
  editFrom write 1 d.pieces

end Document

end EmailMarkup.Html
