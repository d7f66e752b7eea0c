import EmailMarkup.Number.Parts
/-!
# Numbers as authors write them

A decimal numeral is an optional sign, digits with at most one point among or around them, and an
optional exponent; the words `inf`, `infinity` and `nan` are numerals too, in any case of letters. A
whole number is an optional sign and digits.
-/
namespace EmailMarkup.Number

inductive Numeral where
  | decimal (negative : Bool) (digits : Nat) (exponent : Int)
  | infinity (negative : Bool)
  | undefined
  deriving DecidableEq, Repr

def ofDigits (ds : List Char) : Nat := ds.foldl (fun n c => 10 * n + (c.toNat - '0'.toNat)) 0

/-- Whether a text is one or more decimal digits. -/
def isDigits (ds : List Char) : Bool := !ds.isEmpty && ds.all Char.isDigit

/-- Reads an optional sign; true is minus. -/
def takeSign : List Char → Bool × List Char
  | '-' :: r => (true, r)
  | '+' :: r => (false, r)
  | r => (false, r)

/-- Reads what may follow the digits: nothing, or a mark and a whole number. -/
def exponent? : List Char → Option Int
  | [] => some 0
  | c :: r =>
    if c = 'e' ∨ c = 'E' then
      let (negative, ds) := takeSign r
      if isDigits ds then some (if negative then -(ofDigits ds : Int) else ofDigits ds) else none
    else none

namespace Numeral

def decimal? (negative : Bool) (cs : List Char) : Option Numeral :=
  let whole := cs.takeWhile Char.isDigit
  let (fraction, rest) := match cs.dropWhile Char.isDigit with
    | '.' :: r => (r.takeWhile Char.isDigit, r.dropWhile Char.isDigit)
    | r => ([], r)
  if whole.isEmpty && fraction.isEmpty then none
  else (exponent? rest).map fun e =>
    .decimal negative (ofDigits (whole ++ fraction)) (e - fraction.length)

/-- Reads a numeral that fills the whole text. -/
def parse? (s : String) : Option Numeral :=
  let (negative, cs) := takeSign s.toList
  let word := String.ofList (cs.map Char.toLower)
  if word = "inf" || word = "infinity" then some (.infinity negative)
  else if word = "nan" then some .undefined
  else decimal? negative cs

/-- The double nearest to a numeral. Beyond the range of doubles it is an infinity or zero; the test
on the length keeps powers of ten small. -/
def toFloat : Numeral → Float
  | undefined => 0.0 / 0.0
  | infinity negative => if negative then -(1.0 / 0.0) else 1.0 / 0.0
  | decimal negative digits exponent =>
    let size : Int := (Nat.toDigits 10 digits).length + exponent
    let magnitude : Float :=
      if digits = 0 then 0.0
      else if 310 < size then 1.0 / 0.0
      else if size < -330 then 0.0
      else Float.ofScientific digits (exponent < 0) exponent.natAbs
    if negative then -magnitude else magnitude

end Numeral

def float? (s : String) : Option Float := (Numeral.parse? s).map Numeral.toFloat

/-- Reads a whole number without a minus that is at most `max`. -/
def natural? (max : Nat) (cs : List Char) : Option Nat :=
  let ds := match cs with
    | '+' :: r => r
    | r => r
  if isDigits ds && ofDigits ds ≤ max then some (ofDigits ds) else none

/-- Reads a whole number that fits 64 bits with a sign. -/
def whole? (s : String) : Option Int :=
  let (negative, ds) := takeSign s.toList
  if isDigits ds then
    let value : Int := if negative then -(ofDigits ds : Int) else ofDigits ds
    if minWhole ≤ value && value ≤ maxWhole then some value else none
  else none

end EmailMarkup.Number
