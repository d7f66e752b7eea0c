import EmailMarkup.Text.Blank
import EmailMarkup.Text.Nesting
import EmailMarkup.Text.Search
/-!
# Declarations

A declaration gives a property a value, `color: red`, and may be marked `!important`. Lists of them
are the content of a `style` attribute. Merging declarations keeps one place for each property; an
important declaration is replaced only by an important one.
-/
namespace EmailMarkup.Style

open EmailMarkup.Text

structure Declaration where
  /-- In small letters. -/
  property : String
  /-- As written, without the mark of importance. -/
  value : String
  important : Bool
  deriving DecidableEq, Repr, Inhabited

/-! ## Reading -/

/-- The text before and after the last `c`. -/
def cutLast (c : Char) (s : List Char) : Option (List Char × List Char) :=
  (cut [c] s.reverse).map fun (after, before) => (before.reverse, after.reverse)

/-- The mark of importance, in small letters. -/
def importantMark : List Char := ['i', 'm', 'p', 'o', 'r', 't', 'a', 'n', 't']

/-- A value without its mark of importance, and whether it had one. Blanks may stand around the
exclamation mark. -/
def splitImportant (value : List Char) : List Char × Bool :=
  match cutLast '!' value with
  | some (before, after) =>
    if (trimBoth isBlank after).map Char.toLower == importantMark then
      (trimEnd isBlank before, true)
    else (value, false)
  | none => (value, false)

namespace Declaration

/-- Reads a declaration. Both the property and the value must be there. -/
def parse? (s : List Char) : Option Declaration := do
  let (property, value) ← cut [':'] s
  let property := (trimBoth isBlank property).map Char.toLower
  let (value, important) := splitImportant (trimBoth isBlank value)
  if property.isEmpty || value.isEmpty then none
  else some ⟨String.ofList property, String.ofList value, important⟩

def shown (d : Declaration) : String :=
  d.property ++ ":" ++ d.value ++ if d.important then " !important" else ""

def inlineText (d : Declaration) : String :=
  d.property ++ ": " ++ d.value ++ (if d.important then " !important" else "") ++ ";"

end Declaration

/-- Parentheses, as in `url(...)`. -/
def parentheses : Brackets := ⟨['('], [')']⟩

/-- Reads declarations set apart by semicolons; what is no declaration is left out. -/
def parseDeclarations (s : List Char) : List Declaration :=
  (piecesOutside parentheses ';' s).filterMap Declaration.parse?

/-! ## `style` attributes -/

/-- The value of a `style` attribute. -/
def inlineText (l : List Declaration) : String := " ".intercalate (l.map Declaration.inlineText)

/-- Whether `new` takes the place of `old`. -/
def Declaration.overrides (new old : Declaration) : Bool := new.important || !old.important

/-- Puts a declaration in the place of the one for its property, or at the end. -/
def mergeOne : List Declaration → Declaration → List Declaration
  | [], d => [d]
  | old :: rest, d =>
    if old.property = d.property then (if d.overrides old then d else old) :: rest
    else old :: mergeOne rest d

def merge (onto l : List Declaration) : List Declaration := l.foldl mergeOne onto

end EmailMarkup.Style
