/-!
# Quotes and brackets

Style texts are cut at separators, but not at those inside a quoted text or inside brackets. Reading
such a text from the left keeps track of the open quote and of how many brackets are open.
-/
namespace EmailMarkup.Text

structure Brackets where
  opening : List Char
  closing : List Char

/-- What surrounds a place in a text. -/
structure Nesting where
  depth : Nat := 0
  quote : Option Char := none
  deriving DecidableEq, Repr

namespace Nesting

/-- Whether neither a quote nor a bracket is open. -/
def isOutside (n : Nesting) : Bool := n.depth == 0 && n.quote.isNone

/-- What surrounds the place after `c`. Inside a quote only the same quote counts; a closing bracket
without an opening one is no bracket. -/
def step (b : Brackets) (n : Nesting) (c : Char) : Nesting :=
  match n.quote with
  | some q => if c = q then { n with quote := none } else n
  | none =>
    if c = '"' ∨ c = '\'' then { n with quote := some c }
    else if b.opening.contains c then { n with depth := n.depth + 1 }
    else if b.closing.contains c then { n with depth := n.depth - 1 }
    else n

end Nesting

/-- The text before and after the first `separator` that is outside quotes and brackets. -/
def cutOutside (b : Brackets) (separator : Char) :
    Nesting → List Char → Option (List Char × List Char)
  | _, [] => none
  | n, c :: s =>
    if n.isOutside && c == separator then some ([], s)
    else (cutOutside b separator (n.step b c) s).map fun (before, after) => (c :: before, after)

/-- The pieces of a text between the separators that are outside quotes and brackets: the first
piece and the others. -/
def splitOutside (b : Brackets) (separator : Char) :
    Nesting → List Char → List Char × List (List Char)
  | _, [] => ([], [])
  | n, c :: s =>
    let (piece, others) := splitOutside b separator (n.step b c) s
    if n.isOutside && c == separator then ([], piece :: others) else (c :: piece, others)

/-- The pieces of a text between the separators that are outside quotes and brackets. -/
def piecesOutside (b : Brackets) (separator : Char) (s : List Char) : List (List Char) :=
  let (piece, others) := splitOutside b separator {} s
  piece :: others

end EmailMarkup.Text
