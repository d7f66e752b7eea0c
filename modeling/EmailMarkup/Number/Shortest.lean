import EmailMarkup.Number.Parts
/-!
# The shortest decimal that reads back

Among the decimals that read back as a given double, the one with the fewest digits is written; of
two with equally few digits the nearer one, and the larger one at a tie. The text is always
positional: it never has an exponent, and a whole number has no point.

The search is in exact arithmetic. The reals that read back as `m · 2 ^ q` form an interval around it
that reaches half way to the neighbouring doubles, ends included when `m` is even. For 1, 2, … 17
digits the two decimals of that many digits around the value are tried.
-/
namespace EmailMarkup.Number

/-- The reals that read back as one double, and the double itself, as numerators over a common
denominator. -/
structure Interval where
  low : Nat
  value : Nat
  high : Nat
  denominator : Nat
  closed : Bool

/-- The interval of `mantissa · 2 ^ exponent`. Below a power of two the doubles are twice as dense, so
the interval reaches only half as far down there. -/
def Interval.of (mantissa : Nat) (exponent : Int) : Interval :=
  let down := if mantissa = Nat.pow 2 52 ∧ -1074 < exponent then 1 else 2
  let scale := if 0 ≤ exponent then Nat.pow 2 exponent.toNat else 1
  let denominator := if 0 ≤ exponent then 4 else 4 * Nat.pow 2 (-exponent).toNat
  { low := (4 * mantissa - down) * scale
    value := 4 * mantissa * scale
    high := (4 * mantissa + 2) * scale
    denominator
    closed := mantissa % 2 == 0 }

/-- Whether `digits · 10 ^ place` lies in the interval. -/
def Interval.holds (i : Interval) (digits : Nat) (place : Int) : Bool :=
  let d := if 0 ≤ place then digits * Nat.pow 10 place.toNat * i.denominator else digits * i.denominator
  let unit := if 0 ≤ place then 1 else Nat.pow 10 (-place).toNat
  if i.closed then i.low * unit ≤ d && d ≤ i.high * unit else i.low * unit < d && d < i.high * unit

/-- The decimal of the grid `10 ^ place` that lies in the interval and is nearest to its value, if
there is one. A tie goes to the larger decimal. -/
def Interval.nearest? (i : Interval) (place : Int) : Option Nat :=
  let unit := if 0 ≤ place then Nat.pow 10 place.toNat * i.denominator else i.denominator
  let value := if 0 ≤ place then i.value else i.value * Nat.pow 10 (-place).toNat
  let below := value / unit
  let rest := value % unit
  let lowFits := i.holds below place
  let highFits := i.holds (below + 1) place
  if lowFits && highFits then some (if 2 * rest < unit then below else below + 1)
  else if lowFits then some below
  else if highFits then some (below + 1)
  else none

/-- The least `place ≥ start` with `value < 10 ^ place · unit`, searched through `bound` steps. -/
def placeAbove (value unit : Nat) : (bound start : Nat) → Nat
  | 0, start => start
  | bound + 1, start =>
    if value < Nat.pow 10 start * unit then start else placeAbove value unit bound (start + 1)

def Interval.leadingPlace (i : Interval) : Int :=
  if i.denominator ≤ i.value then (placeAbove i.value i.denominator 400 1 : Int) - 1
  else -(placeAbove i.denominator i.value 400 0 : Int)

/-- The first grid of at most `left` more digits that holds a decimal of the interval. -/
def Interval.search (i : Interval) : (left : Nat) → (place : Int) → Nat × Int
  | 0, place => ((i.nearest? place).getD 0, place)
  | left + 1, place =>
    match i.nearest? place with
    | some digits => (digits, place)
    | none => i.search left (place - 1)

def shortest (mantissa : Nat) (exponent : Int) : Nat × Int :=
  let i := Interval.of mantissa exponent
  i.search 17 i.leadingPlace

/-- Writes `digits · 10 ^ place` without an exponent. -/
def positional (digits : Nat) (place : Int) : String :=
  let ds := Nat.toDigits 10 digits
  if 0 ≤ place then String.ofList (ds ++ List.replicate place.toNat '0')
  else
    let behind := (-place).toNat
    let ds := List.replicate (behind + 1 - ds.length) '0' ++ ds
    let whole := ds.take (ds.length - behind)
    let fraction := (ds.drop (ds.length - behind)).reverse.dropWhile (· == '0') |>.reverse
    if fraction.isEmpty then String.ofList whole
    else String.ofList (whole ++ ['.'] ++ fraction)

/-- The text of a double: the shortest decimal that reads back, positional. -/
def text (x : Float) : String :=
  match parts x with
  | .undefined => "NaN"
  | .infinite negative => if negative then "-inf" else "inf"
  | .finite negative mantissa exponent =>
    let magnitude :=
      if mantissa = 0 then "0"
      else
        let (digits, place) := shortest mantissa exponent
        positional digits place
    if negative then "-" ++ magnitude else magnitude

/-- The text of a width: a whole number without point or sign of zero, any other double as `text`. -/
def widthText (x : Float) : String :=
  if isWhole x then toString (truncate x) else text x

end EmailMarkup.Number
