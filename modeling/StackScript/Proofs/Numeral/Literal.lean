import Mathlib
import StackScript.Numeral.Decimal

/-!
# StackScript.Proofs.Numeral.Literal

Numbers that can be written down.

* `Numeral.Unsigned`: a number that is not the negative zero. All literals are.
* `Numeral.Unsigned.eq_of_beq`: of such numbers, equal ones are the same. A pool of constants
  that holds literals only never takes one number for another.
-/

namespace StackScript
namespace Numeral

def Unsigned (x : Float) : Prop := x ≠ -0

theorem Unsigned.eq_of_beq {x y : Float} (hx : Unsigned x) (hy : Unsigned y)
    (h : (x == y) = true) : x = y := by
  obtain ⟨-, -, e | ⟨-, e⟩ | ⟨e, -⟩⟩ := Float.beq_iff_ne_nan_and_eq.1 h
  · exact e
  · exact absurd e hy
  · exact absurd e hx

theorem nearestBits_le (num den : Nat) : nearestBits num den ≤ specialExponent * leadingBit := by
  unfold nearestBits
  split
  · exact Nat.zero_le _
  · exact Nat.min_le_left _ _

/-- Bits that are read back are the same, or those of the one NaN there is. -/
theorem toBits_ofBits (b : UInt64) :
    (Float.ofBits b).toBits = b ∨ (Float.ofBits b).toBits = 0x7FF8000000000000 := by
  have packed : (Float.ofBits b).toBits.toBitVec = _ :=
    @Float.Model.UnpackedFloat.pack_unpack .binary64 b.toBitVec (by decide)
  split at packed
  · exact .inr (UInt64.toBitVec_inj.1 (packed.trans (by decide +kernel)))
  · exact .inl (UInt64.toBitVec_inj.1 packed)

theorem unsigned_nearest (num den : Nat) : Unsigned (nearest num den) := by
  intro e
  have sign : (-0 : Float).toBits = 0x8000000000000000 := by decide +kernel
  have bound : nearestBits num den ≤ 0x7FF0000000000000 := nearestBits_le num den
  have bits := sign ▸ congrArg Float.toBits e
  obtain same | nan := toBits_ofBits (nearestBits num den).toUInt64
  · have := congrArg UInt64.toNat (same.symm.trans bits)
    simp at this
    omega
  · exact absurd (nan.symm.trans bits) (by decide)

theorem unsigned_ofLiteral (literal : String) : Unsigned (ofLiteral literal) :=
  unsigned_nearest _ _

end Numeral
end StackScript
