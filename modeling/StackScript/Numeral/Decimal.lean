import StackScript.Numeral.Binary

/-!
# StackScript.Numeral.Decimal

The decimal text of a double and the double of a decimal text.

* `Interval`: the reals that round to a given double.
* `shortest`: the decimal with the fewest digits in that interval; of two such decimals the
  nearer one, a tie going to the larger.
* `text`: how the language shows a number. Always positional, no point for integers, the sign of
  zero kept, `NaN` without a sign.
* `ofLiteral`: the double nearest to a literal `digits` or `digits.digits`.
-/

namespace StackScript
namespace Numeral

/-- The reals that round to one double, as multiples of `2 ^ exponent`. -/
structure Interval where
  low : Nat
  value : Nat
  high : Nat
  exponent : Int
  /-- whether the ends themselves still round to the double -/
  closed : Bool

/-- The gap below a power of two is half as wide as the gap above it, except at the bottom of
the range. -/
def Interval.around (b : Binary) : Interval :=
  let narrow := b.mantissa == leadingBit && b.exponent != leastExponent
  { low := 4 * b.mantissa - (if narrow then 1 else 2)
    value := 4 * b.mantissa
    high := 4 * b.mantissa + 2
    exponent := b.exponent - 2
    closed := b.mantissa % 2 == 0 }

/-- The decimal `digits * 10 ^ exponent`. -/
structure Decimal where
  digits : Nat
  exponent : Int
deriving DecidableEq

/-- `base ^ e` for nonnegative `e`, else one. -/
def powerUp (base : Nat) (e : Int) : Nat := Nat.pow base e.toNat

/-- One unit of an interval is `gridNum / gridDen` steps of the grid of multiples of
`10 ^ exponent`; both are natural, since negative powers change sides. -/
def gridNum (i : Interval) (exponent : Int) : Nat := powerUp 2 i.exponent * powerUp 10 (-exponent)

/-- The denominator that belongs to `gridNum`. -/
def gridDen (i : Interval) (exponent : Int) : Nat := powerUp 2 (-i.exponent) * powerUp 10 exponent

/-- Whether `digits * 10 ^ exponent` lies in the interval. -/
def Interval.holds (i : Interval) (digits : Nat) (exponent : Int) : Bool :=
  let num := gridNum i exponent
  let scaled := digits * gridDen i exponent
  if i.closed then decide (i.low * num ≤ scaled) && decide (scaled ≤ i.high * num)
  else decide (i.low * num < scaled) && decide (scaled < i.high * num)

/-- The multiple of `10 ^ exponent` in the interval that is nearest to its value, looked for
among the two neighbours of the value. -/
def Interval.onGrid? (i : Interval) (exponent : Int) : Option Nat :=
  let num := i.value * gridNum i exponent
  let den := gridDen i exponent
  let below := num / den
  match i.holds below exponent, i.holds (below + 1) exponent with
  | true, true => some (if 2 * (num % den) < den then below else below + 1)
  | true, false => some below
  | false, true => some (below + 1)
  | false, false => none

/-- The first hit on the grids `10 ^ top`, `10 ^ (top - 1)`, …, `steps` of them. -/
def Interval.coarsest (i : Interval) : Nat → Int → Decimal
  | 0, exponent => ⟨i.value * gridNum i exponent / gridDen i exponent, exponent⟩
  | steps + 1, exponent =>
    match i.onGrid? exponent with
    | some digits => ⟨digits, exponent⟩
    | none => i.coarsest steps (exponent - 1)

/-- An exponent of ten above every value of the interval. -/
def Interval.top (i : Interval) : Int :=
  (((i.value.log2 : Int) + i.exponent) * 30103) / 100000 + 2

/-- Seventeen digits identify every double, so twenty grids from the top hold a hit. -/
def shortest (b : Binary) : Decimal :=
  let i := Interval.around b
  i.coarsest 20 i.top

/-- The digits of a decimal with the point at its place, and without an exponent. -/
def Decimal.positional (d : Decimal) : String :=
  let digits := Nat.toDigits 10 d.digits
  if 0 ≤ d.exponent then
    String.ofList (digits ++ List.replicate d.exponent.natAbs '0')
  else
    let places := d.exponent.natAbs
    if places < digits.length then
      let whole := digits.length - places
      String.ofList (digits.take whole ++ '.' :: digits.drop whole)
    else
      String.ofList ('0' :: '.' :: List.replicate (places - digits.length) '0' ++ digits)

/-- How the language shows a number. -/
def text (x : Float) : String :=
  match decode x with
  | .nan => "NaN"
  | .infinite negative => if negative then "-inf" else "inf"
  | .finite negative b =>
    let magnitude := if b.mantissa = 0 then "0" else (shortest b).positional
    if negative then "-" ++ magnitude else magnitude

def digitValue (c : Char) : Nat := c.toNat - '0'.toNat

/-- The natural number that decimal digits denote. -/
def naturalOfDigits (digits : List Char) : Nat :=
  digits.foldl (fun n c => 10 * n + digitValue c) 0

/-- The double nearest to the number that `whole.fraction` denotes. -/
def ofDigits (whole fraction : List Char) : Float :=
  nearest (naturalOfDigits (whole ++ fraction)) (Nat.pow 10 fraction.length)

/-- The value of a literal `digits` or `digits.digits`. -/
def ofLiteral (literal : String) : Float :=
  let cs := literal.toList
  ofDigits (cs.takeWhile (· != '.')) ((cs.dropWhile (· != '.')).drop 1)

end Numeral
end StackScript
