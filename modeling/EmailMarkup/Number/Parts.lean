/-!
# A double taken apart

A finite double is `± mantissa · 2 ^ exponent` with natural `mantissa`; the other doubles are the two
infinities and those that are no number. Printing and truncation work on these parts, in exact
arithmetic.
-/
namespace EmailMarkup.Number

inductive Parts where
  | finite (negative : Bool) (mantissa : Nat) (exponent : Int)
  | infinite (negative : Bool)
  | undefined
  deriving DecidableEq, Repr

/-- The parts of the double with the given 64 bits: one of sign, eleven of exponent, 52 of fraction. -/
def Parts.ofBits (bits : Nat) : Parts :=
  let negative := bits / Nat.pow 2 63 % 2 == 1
  let exponent : Nat := bits / Nat.pow 2 52 % 2048
  let fraction := bits % Nat.pow 2 52
  if exponent = 2047 then if fraction = 0 then .infinite negative else .undefined
  else if exponent = 0 then .finite negative fraction (-1074)
  else .finite negative (fraction + Nat.pow 2 52) ((exponent : Int) - 1075)

def parts (x : Float) : Parts := .ofBits x.toBits.toNat

/-- Whether a double is a number between the infinities. -/
def isFinite (x : Float) : Bool :=
  match parts x with
  | .finite .. => true
  | _ => false

def isWhole (x : Float) : Bool :=
  match parts x with
  | .finite _ mantissa exponent => 0 ≤ exponent || mantissa % Nat.pow 2 (-exponent).toNat == 0
  | _ => false

/-- The smallest whole number that fits 64 bits with a sign. -/
def minWhole : Int := -9223372036854775808

/-- The largest whole number that fits 64 bits with a sign. -/
def maxWhole : Int := 9223372036854775807

/-- A double cut off at the point, towards zero. Values beyond 64 bits stop at the nearest end, and
what is no number counts as zero. -/
def truncate (x : Float) : Int :=
  match parts x with
  | .undefined => 0
  | .infinite negative => if negative then minWhole else maxWhole
  | .finite negative mantissa exponent =>
    let magnitude : Nat :=
      if 0 ≤ exponent then mantissa * Nat.pow 2 exponent.toNat else mantissa / Nat.pow 2 (-exponent).toNat
    let value : Int := if negative then -(magnitude : Int) else magnitude
    max minWhole (min maxWhole value)

end EmailMarkup.Number
