import EmailMarkup.Number.Numeral
import EmailMarkup.Template.Malformed
import EmailMarkup.Text.Search
/-!
# Character references

In text and attribute values `&name;` stands for one of five named characters, `&#65;` and `&#x41;`
for the character of that code point.
-/
namespace EmailMarkup.Template

open EmailMarkup.Text

def hexValue? (c : Char) : Option Nat :=
  if c.isDigit then some (c.toNat - '0'.toNat)
  else if 'a' ≤ c ∧ c ≤ 'f' then some (c.toNat - 'a'.toNat + 10)
  else if 'A' ≤ c ∧ c ≤ 'F' then some (c.toNat - 'A'.toNat + 10)
  else none

/-- Reads one or more hexadecimal digits, after an optional plus. -/
def hexadecimal? (cs : List Char) : Option Nat :=
  let ds := match cs with
    | '+' :: r => r
    | r => r
  if ds.isEmpty then none
  else ds.foldlM (fun n c => (hexValue? c).map (16 * n + ·)) 0

/-- The largest code a numeric reference may spell. -/
def maxCode : Nat := 4294967295

/-- The character of a numeric reference, given what stands between `&#` and `;`. -/
def numericCharacter? (s : List Char) : Option Char :=
  let code := match s with
    | 'x' :: r | 'X' :: r => (hexadecimal? r).filter (· ≤ maxCode)
    | r => Number.natural? maxCode r
  code.bind fun n => if n.isValidChar ∧ n ≠ 0 then some (Char.ofNat n) else none

/-- The character of a reference, given its name. -/
def character (name : List Char) : Except Malformed Char :=
  match name with
  | '#' :: digits =>
    match numericCharacter? digits with
    | some c => .ok c
    | none => .error (.invalidCharacter (String.ofList name))
  | _ =>
    match String.ofList name with
    | "amp" => .ok '&'
    | "lt" => .ok '<'
    | "gt" => .ok '>'
    | "quot" => .ok '"'
    | "apos" => .ok '\''
    | other => .error (.undeclaredEntity other)

/-- Replaces every reference by its character. The counter is how many characters of the reference
just read are still to be passed over. -/
def decodeFrom : Nat → List Char → Except Malformed (List Char)
  | _, [] => .ok []
  | k + 1, _ :: s => decodeFrom k s
  | 0, c :: s =>
    if c = '&' then
      match cut [';'] s with
      | none => .error .referenceWithoutEnd
      | some (name, _) => do
        let d ← character name
        return d :: (← decodeFrom (name.length + 1) s)
    else do
      return c :: (← decodeFrom 0 s)

def decode (s : List Char) : Except Malformed (List Char) := decodeFrom 0 s

end EmailMarkup.Template
