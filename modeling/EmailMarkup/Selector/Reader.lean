import EmailMarkup.Selector.Basic
import EmailMarkup.Text.Blank
import EmailMarkup.Text.Nesting
import EmailMarkup.Text.Search
/-!
# Reading selectors

Every reader takes its part off the front of the text and returns it with the rest, or fails. A
selector is read from left to right, so the chain grows at its front and ends up with the compound
nearest to the subject first.
-/
namespace EmailMarkup.Selector

open EmailMarkup.Text

/-! ## Names -/

def isNameStart (c : Char) : Bool := c.isAlpha || c == '_' || 0x80 ≤ c.toNat

def isNameChar (c : Char) : Bool := isNameStart c || c.isDigit || c == '-'

def skipBlank (s : List Char) : List Char := s.dropWhile isAsciiBlank

/-- Reads a name that is not empty. -/
def readName? (s : List Char) : Option (List Char × List Char) :=
  match s.takeWhile isNameChar with
  | [] => none
  | name => some (name, s.dropWhile isNameChar)

/-- Reads a name that is not empty, in small letters. -/
def readLowerName? (s : List Char) : Option (List Char × List Char) :=
  (readName? s).map fun (name, rest) => (name.map Char.toLower, rest)

/-! ## Attribute tests -/

/-- Reads the value of a comparison: a quoted text or a name that may hold dots. -/
def readValue? (s : List Char) : Option (String × List Char) :=
  match s with
  | [] => none
  | q :: r =>
    if q == '"' || q == '\'' then (cut [q] r).map fun (value, rest) => (String.ofList value, rest)
    else
      match s.takeWhile fun c => isNameChar c || c == '.' with
      | [] => none
      | value => some (String.ofList value, s.drop value.length)

def readComparison? : List Char → Option (Comparison × List Char)
  | '=' :: r => some (.equals, r)
  | '~' :: '=' :: r => some (.word, r)
  | '|' :: '=' :: r => some (.dash, r)
  | '^' :: '=' :: r => some (.start, r)
  | '$' :: '=' :: r => some (.finish, r)
  | '*' :: '=' :: r => some (.part, r)
  | _ => none

/-- Reads an attribute test, after its opening bracket. -/
def readAttribute? (s : List Char) : Option (AttributeTest × List Char) := do
  let (name, r) ← readLowerName? (skipBlank s)
  let name := String.ofList name
  match skipBlank r with
  | ']' :: rest => return (⟨name, none⟩, rest)
  | r =>
    let (comparison, r) ← readComparison? r
    let (value, r) ← readValue? (skipBlank r)
    match skipBlank r with
    | ']' :: rest => return (⟨name, some (comparison, value)⟩, rest)
    | _ => none

/-! ## Pseudo-classes and pseudo-elements -/

/-- Reads up to the parenthesis that closes `depth` open ones, that one included. -/
def readBalanced? : Nat → List Char → Option (List Char × List Char)
  | _, [] => none
  | depth, c :: s =>
    if c = ')' && depth ≤ 1 then some ([c], s)
    else
      let depth := if c = '(' then depth + 1 else if c = ')' then depth - 1 else depth
      (readBalanced? depth s).map fun (inside, rest) => (c :: inside, rest)

/-- The arguments of a pseudo-class with their parentheses; none if it takes none. -/
def readArguments? (s : List Char) : Option (List Char × List Char) :=
  match s with
  | '(' :: r => (readBalanced? 1 r).map fun (inside, rest) => ('(' :: inside, rest)
  | _ => some ([], s)

/-- Pseudo-elements that may be written with one colon. -/
def singleColonElements : List String := ["before", "after", "first-line", "first-letter"]

/-- Reads a pseudo-class or pseudo-element, after its first colon. -/
def readPseudo? (s : List Char) : Option (Simple × List Char) := do
  let (double, r) := match s with
    | ':' :: r => (true, r)
    | r => (false, r)
  let (name, r) ← readLowerName? r
  let (arguments, rest) ← readArguments? r
  let name := String.ofList (name ++ arguments)
  if double || singleColonElements.contains name then return (.pseudoElement name, rest)
  else return (.pseudoClass name, rest)

/-! ## Compounds and chains -/

/-- Reads a condition. A tag may only stand first. -/
def readSimple? (first : Bool) : List Char → Option (Simple × List Char)
  | [] => none
  | '.' :: r => (readName? r).map fun (name, rest) => (.className (String.ofList name), rest)
  | '#' :: r => (readName? r).map fun (name, rest) => (.id (String.ofList name), rest)
  | '*' :: r => some (.any, r)
  | ':' :: r => readPseudo? r
  | '[' :: r => (readAttribute? r).map fun (test, rest) => (.attr test, rest)
  | c :: r =>
    if first && (isNameStart c || c == '-') then
      some (.tag (String.ofList (c :: r.takeWhile isNameChar)), r.dropWhile isNameChar)
    else none

/-- The combinator that a character stands for. -/
def combinator? : Char → Option Combinator
  | '>' => some .child
  | '+' => some .next
  | '~' => some .following
  | _ => none

/-- Reads the rest of a selector. `chain` holds what was read before the last combinator, `compound`
the conditions since then, the last one first. The fuel is the length of the text: every step takes
some of it. -/
def readFrom? : Nat → List (Combinator × Compound) → Compound → List Char → Option Selector
  | 0, chain, compound, _ | _, chain, compound, [] =>
    if compound.isEmpty then none else some ⟨compound.reverse, chain⟩
  | fuel + 1, chain, compound, c :: r =>
    if isMarkupBlank c then
      match skipBlank r with
      | [] => readFrom? fuel chain compound []
      | d :: rest =>
        if (combinator? d).isSome then readFrom? fuel chain compound (d :: rest)
        else if compound.isEmpty then none
        else readFrom? fuel ((.descendant, compound.reverse) :: chain) [] (d :: rest)
    else
      match combinator? c with
      | some combinator =>
        if compound.isEmpty then none
        else readFrom? fuel ((combinator, compound.reverse) :: chain) [] (skipBlank r)
      | none => do
        let (simple, rest) ← readSimple? compound.isEmpty (c :: r)
        readFrom? fuel chain (simple :: compound) rest

def ofChars? (s : List Char) : Option Selector :=
  let s := trimBoth isBlank s
  readFrom? s.length [] [] s

def parse? (s : String) : Option Selector := ofChars? s.toList

/-- Brackets inside which a comma does not end a selector. -/
def listBrackets : Brackets := ⟨['[', '('], [']', ')']⟩

/-- Reads a list of selectors set apart by commas. If one cannot be read, the list cannot. -/
def listOfChars? (s : List Char) : Option (List Selector) :=
  (piecesOutside listBrackets ',' s).mapM ofChars?

def parseList? (s : String) : Option (List Selector) := listOfChars? s.toList

end EmailMarkup.Selector
