import EmailMarkup.Number.Numeral
import EmailMarkup.Text.Blank
import EmailMarkup.Text.Search
/-!
# Values in a configuration file

A configuration file is written in JSON. Of the numbers only the natural ones that fit 64 bits are
read, since no setting takes another.
-/
namespace EmailMarkup.Configuration

open EmailMarkup.Text

/-- A JSON value. The members of an object are in the order of the file. -/
inductive Value where
  | null
  | bool (b : Bool)
  | number (n : Nat)
  | string (s : String)
  | array (items : List Value)
  | object (members : List (String × Value))
  deriving Repr, Inhabited

namespace Value

/-! ## Strings -/

/-- A part of a string: a character as it stands, or a code written with four digits. -/
inductive Part where
  | char (c : Char)
  | code (n : Nat)
  deriving DecidableEq, Repr

def hexDigit? (c : Char) : Option Nat :=
  if '0' ≤ c ∧ c ≤ '9' then some (c.toNat - '0'.toNat)
  else if 'a' ≤ c ∧ c ≤ 'f' then some (c.toNat - 'a'.toNat + 10)
  else if 'A' ≤ c ∧ c ≤ 'F' then some (c.toNat - 'A'.toNat + 10)
  else none

/-- The code that four digits write. -/
def code? (a b c d : Char) : Option Nat := do
  return (((← hexDigit? a) * 16 + (← hexDigit? b)) * 16 + (← hexDigit? c)) * 16 + (← hexDigit? d)

/-- The character that stands after a backslash for another. -/
def escaped? : Char → Option Char
  | '"' => some '"'
  | '\\' => some '\\'
  | '/' => some '/'
  | 'b' => some '\x08'
  | 'f' => some '\x0c'
  | 'n' => some '\n'
  | 'r' => some '\r'
  | 't' => some '\t'
  | _ => none

/-- The parts of a string up to its closing quote, and what follows. -/
def readParts? : List Char → Option (List Part × List Char)
  | [] => none
  | '"' :: rest => some ([], rest)
  | '\\' :: 'u' :: a :: b :: c :: d :: rest => do
    let n ← code? a b c d
    let (parts, rest) ← readParts? rest
    return (.code n :: parts, rest)
  | '\\' :: c :: rest => do
    let c ← escaped? c
    let (parts, rest) ← readParts? rest
    return (.char c :: parts, rest)
  | c :: rest =>
    if c.toNat < 0x20 ∨ c = '\\' then none
    else do
      let (parts, rest) ← readParts? rest
      return (.char c :: parts, rest)

def isFirstHalf (n : Nat) : Bool := 0xD800 ≤ n && n < 0xDC00

def isSecondHalf (n : Nat) : Bool := 0xDC00 ≤ n && n < 0xE000

/-- The characters of parts. A character beyond 16 bits is written as two codes, which stand alone
nowhere. -/
def joinParts? : List Part → Option (List Char)
  | [] => some []
  | .char c :: rest => (joinParts? rest).map (c :: ·)
  | .code n :: .code k :: rest =>
    if isFirstHalf n then
      if isSecondHalf k then
        (joinParts? rest).map (Char.ofNat (0x10000 + (n - 0xD800) * 0x400 + (k - 0xDC00)) :: ·)
      else none
    else if isSecondHalf n then none
    else (joinParts? (.code k :: rest)).map (Char.ofNat n :: ·)
  | .code n :: rest =>
    if isFirstHalf n || isSecondHalf n then none else (joinParts? rest).map (Char.ofNat n :: ·)

/-- A string up to its closing quote, and what follows. -/
def readString? (s : List Char) : Option (String × List Char) := do
  let (parts, rest) ← readParts? s
  let chars ← joinParts? parts
  return (String.ofList chars, rest)

/-! ## Values -/

def skipBlank (s : List Char) : List Char := trimStart isMarkupBlank s

/-- A natural number without superfluous zeros, and what follows. -/
def readNumber? (s : List Char) : Option (Value × List Char) :=
  let digits := s.takeWhile Char.isDigit
  if digits.head? == some '0' && digits.length != 1 then none
  else (Number.natural? 18446744073709551615 digits).map fun n => (.number n, s.drop digits.length)

/-- A word with a meaning of its own, and what follows. -/
def readWord? (s : List Char) : Option (Value × List Char) :=
  ((strip? ['n', 'u', 'l', 'l'] s).map fun rest => (null, rest)) <|>
    ((strip? ['t', 'r', 'u', 'e'] s).map fun rest => (bool true, rest)) <|>
    ((strip? ['f', 'a', 'l', 's', 'e'] s).map fun rest => (bool false, rest))

mutual

/-- A value, and what follows. The bound is on the length of the text. -/
def readValue? : Nat → List Char → Option (Value × List Char)
  | 0, _ => none
  | bound + 1, s =>
    match skipBlank s with
    | '"' :: rest => (readString? rest).map fun (content, rest) => (.string content, rest)
    | '[' :: rest =>
      match skipBlank rest with
      | ']' :: rest => some (.array [], rest)
      | _ => (readItems? bound rest).map fun (items, rest) => (.array items, rest)
    | '\x7b' :: rest =>
      match skipBlank rest with
      | '\x7d' :: rest => some (.object [], rest)
      | _ => (readMembers? bound rest).map fun (members, rest) => (.object members, rest)
    | c :: rest => if c.isDigit then readNumber? (c :: rest) else readWord? (c :: rest)
    | [] => none

/-- One or more items up to the closing bracket, and what follows. -/
def readItems? : Nat → List Char → Option (List Value × List Char)
  | 0, _ => none
  | bound + 1, s => do
    let (item, rest) ← readValue? bound s
    match skipBlank rest with
    | ',' :: rest =>
      let (items, rest) ← readItems? bound rest
      return (item :: items, rest)
    | ']' :: rest => return ([item], rest)
    | _ => none

/-- One or more members up to the closing brace, and what follows. -/
def readMembers? : Nat → List Char → Option (List (String × Value) × List Char)
  | 0, _ => none
  | bound + 1, s => do
    let (name, rest) ← match skipBlank s with
      | '"' :: rest => readString? rest
      | _ => none
    let (value, rest) ← match skipBlank rest with
      | ':' :: rest => readValue? bound rest
      | _ => none
    match skipBlank rest with
    | ',' :: rest =>
      let (members, rest) ← readMembers? bound rest
      return ((name, value) :: members, rest)
    | '\x7d' :: rest => return ([(name, value)], rest)
    | _ => none

end

/-- Reads a text that holds one value and nothing else. -/
def parse? (s : String) : Option Value := do
  let (value, rest) ← readValue? (s.length + 1) s.toList
  if (skipBlank rest).isEmpty then some value else none

end Value

end EmailMarkup.Configuration
