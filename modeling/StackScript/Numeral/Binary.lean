/-!
# StackScript.Numeral.Binary

Doubles seen as exact numbers, in `Nat` and `Int` arithmetic only.

* `Binary`: a magnitude `mantissa * 2 ^ exponent` that is some double's absolute value.
* `Decoded`: what the 64 bits of a double say (`decode`).
* `integer?`: the exact integer a double stands for, if it stands for one.
* `nearestBits`: the bits of the double nearest to a positive fraction, a tie going to the even
  mantissa, and of infinity from half a unit beyond the largest double on.
-/

namespace StackScript
namespace Numeral

/-- The magnitude `mantissa * 2 ^ exponent`. -/
structure Binary where
  mantissa : Nat
  exponent : Int
deriving DecidableEq

inductive Decoded where
  | nan
  | infinite (negative : Bool)
  | finite (negative : Bool) (magnitude : Binary)

/-- Number of bits behind the leading one of a normal double. -/
def fractionBits : Nat := 52

/-- Weight of the leading mantissa bit of a normal double, `2 ^ fractionBits`. -/
def leadingBit : Nat := 0x10000000000000

/-- The least 64-bit word whose sign bit is set. -/
def signBit : Nat := 0x8000000000000000

/-- Exponent of the last mantissa bit of the smallest doubles. -/
def leastExponent : Int := -1074

/-- Bits of the exponent field when all of them are set: infinities and NaN. -/
def specialExponent : Nat := 2047

def decodeBits (bits : UInt64) : Decoded :=
  let n := bits.toNat
  let negative := decide (signBit ≤ n)
  let field := n / leadingBit % 2048
  let fraction := n % leadingBit
  if field = specialExponent then
    if fraction = 0 then .infinite negative else .nan
  else if field = 0 then
    .finite negative ⟨fraction, leastExponent⟩
  else
    .finite negative ⟨leadingBit + fraction, leastExponent + (field - 1 : Nat)⟩

def decode (x : Float) : Decoded := decodeBits x.toBits

/-- The integer equal to a magnitude, if there is one. -/
def Binary.natural? (b : Binary) : Option Nat :=
  if b.exponent < 0 then
    let unit := Nat.pow 2 b.exponent.natAbs
    if b.mantissa % unit = 0 then some (b.mantissa / unit) else none
  else
    some (b.mantissa * Nat.pow 2 b.exponent.natAbs)

/-- The integer a double is equal to; NaN, the infinities and fractions have none. -/
def integer? (x : Float) : Option Int :=
  match decode x with
  | .finite negative b => b.natural?.map fun n => if negative then -(n : Int) else (n : Int)
  | _ => none

/-- `num / den` rounded to the nearest natural number, a tie to the even one. -/
def roundDiv (num den : Nat) : Nat :=
  let quotient := num / den
  let twice := 2 * (num % den)
  if den < twice || (twice == den && quotient % 2 == 1) then quotient + 1 else quotient

/-- Whether `2 ^ e ≤ num / den`. -/
def powerAtMost (e : Int) (num den : Nat) : Bool :=
  if e < 0 then decide (den ≤ num * Nat.pow 2 e.natAbs)
  else decide (den * Nat.pow 2 e.natAbs ≤ num)

/-- The exponent of the leading bit of a positive fraction. -/
def leadingExponent (num den : Nat) : Int :=
  let guess : Int := (num.log2 : Int) - (den.log2 : Int)
  if powerAtMost guess num den then guess else guess - 1

/-- The bits of the nonnegative double nearest to `num / den`. -/
def nearestBits (num den : Nat) : Nat :=
  if num = 0 then 0
  else
    let exponent := max leastExponent (leadingExponent num den - fractionBits)
    let mantissa :=
      if exponent < 0 then roundDiv (num * Nat.pow 2 exponent.natAbs) den
      else roundDiv num (den * Nat.pow 2 exponent.natAbs)
    min (specialExponent * leadingBit)
      ((exponent - leastExponent).toNat * leadingBit + mantissa)

/-- The double nearest to `num / den`. -/
def nearest (num den : Nat) : Float := Float.ofBits (nearestBits num den).toUInt64

end Numeral
end StackScript
