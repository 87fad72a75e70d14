import Mathlib
import StackScript.Proofs.Numeral.Ordering

/-!
# StackScript.Proofs.Numeral.Exact

Operations on doubles that lose nothing.

* `Normal`: a mantissa with all its bits. Rounding leaves it as it is, and so does packing it into
  64 bits and unpacking it.
* `unpack_toFloat`: a natural number of at most 53 bits becomes the double that has its value.
* `unpack_div`: dividing it by `2 ^ 53` changes the exponent alone.
* `decode_div`: so the quotient is the exact multiple of `2 ^ -53`.
-/

namespace StackScript
namespace Numeral

open Float.Model (UnpackedFloat Format totalExponent)
open Float.Model.UnpackedFloat (Accuracy ExtendedMantissa Sign pack packComponents roundWithAccuracy
  shiftToExponent shiftToTargetExponent unpack)

/-- A mantissa with all its bits, and an exponent with which it is a normal double. -/
structure Normal (m : Nat) (e : Int) : Prop where
  leading : leadingBit ≤ m
  mantissa : m < 2 * leadingBit
  least : leastExponent ≤ e
  greatest : e ≤ 971

namespace Normal

variable {m : Nat} {e : Int} {s : Sign}

theorem pos (h : Normal m e) : 0 < m := Nat.lt_of_lt_of_le (by decide) h.leading

theorem log2_eq (h : Normal m e) : m.log2 = 52 :=
  (Nat.log2_eq_iff (Nat.ne_of_gt h.pos)).2 ⟨h.leading, h.mantissa⟩

theorem targetExponent_eq (h : Normal m e) :
    Format.binary64.targetExponent (totalExponent m e) = e := by
  have least := h.least
  unfold Format.targetExponent totalExponent
  rw [h.log2_eq, show Format.binary64.minExponent = leastExponent from rfl,
    show (Format.binary64.mantissaBits : Int) = 53 from rfl]
  omega

theorem shift_eq (h : Normal m e) (a : Accuracy) :
    shiftToTargetExponent .binary64 m e a = (.ofMantissaAndAccuracy m a, e) := by
  unfold shiftToTargetExponent shiftToExponent
  rw [h.targetExponent_eq]
  dsimp only
  rw [Int.sub_self, Int.toNat_zero, Nat.cast_zero, Int.add_zero]
  rfl

theorem round_eq (h : Normal m e) :
    roundWithAccuracy .binary64 s m e .exact = .finite s m e h.pos := by
  unfold roundWithAccuracy
  simp only [h.shift_eq, ExtendedMantissa.ofMantissaAndAccuracy, ExtendedMantissa.roundedMantissa,
    ExtendedMantissa.accuracy, Accuracy.roundToNearestEven]
  rw [dif_neg (Nat.ne_of_gt h.pos)]

theorem finite_congr {m m' : Nat} {e e' : Int} (s : Sign) (hm : m = m') (he : e = e') (h : 0 < m)
    (h' : 0 < m') : UnpackedFloat.finite s m e h = .finite s m' e' h' := by
  subst hm he
  rfl

/-- The leading bit is not stored; the other bits of the mantissa are. -/
theorem toNat_stored (h : Normal m e) : (1#1 ++ BitVec.ofNat 52 m).toNat = m := by
  have leading := h.leading
  have mantissa := h.mantissa
  unfold leadingBit at leading mantissa
  have rest : m % 2 ^ 52 < 2 ^ 52 := Nat.mod_lt _ (by decide)
  have low : (BitVec.ofNat 52 m).toNat = m % 2 ^ 52 := BitVec.toNat_ofNat _ _
  rw [BitVec.toNat_append, low, ← Nat.shiftLeft_add_eq_or_of_lt rest]
  norm_num [Nat.shiftLeft_eq]
  omega

/-- The exponent is stored with the bias added to it, which leaves neither zero nor ones alone. -/
theorem exists_stored (h : Normal m e) : ∃ b : Nat, (b : Int) = e + 1075 ∧ b ≠ 0 ∧ b < 2047 ∧
    pack .binary64 (.finite s m e h.pos) =
      packComponents .binary64 s (BitVec.ofNat _ b) (BitVec.ofNat _ m) := by
  have least := h.least
  have greatest := h.greatest
  unfold leastExponent at least
  have bias : (Format.binary64.exponentBias : Int) = 1023 := rfl
  refine ⟨(e + Format.binary64.exponentBias + (52 : Nat)).toNat, by omega, by omega, by omega, ?_⟩
  generalize hb : (e + Format.binary64.exponentBias + (52 : Nat)).toNat = b
  unfold pack
  dsimp only
  rw [h.log2_eq, hb, if_neg (by norm_num; omega),
    if_pos (show 52 + 1 = Format.binary64.mantissaBits from rfl)]

theorem unpack_pack (h : Normal m e) :
    unpack .binary64 (pack .binary64 (.finite s m e h.pos)) = .finite s m e h.pos := by
  have bias : (Format.binary64.exponentBias : Int) = 1023 := rfl
  obtain ⟨b, biased, least, greatest, packed⟩ := h.exists_stored (s := s)
  have field : (BitVec.ofNat 11 b).toNat = b := by
    rw [BitVec.toNat_ofNat]
    omega
  rw [packed]
  unfold unpack
  simp only [UnpackedFloat.unpackMantissa_packComponents,
    UnpackedFloat.unpackExponent_packComponents, UnpackedFloat.unpackSign_packComponents,
    Sign.ofBitVec_toBitVec]
  rw [if_neg, if_neg]
  · exact finite_congr s h.toNat_stored (by rw [field]; omega) _ _
  · intro zero
    exact least (field.symm.trans (congrArg BitVec.toNat zero))
  · intro ones
    have := field.symm.trans (congrArg BitVec.toNat ones)
    change b = 2047 at this
    omega

/-- A mantissa with one bit too many, the last one zero. -/
theorem round_twice (h : Normal m e) :
    roundWithAccuracy .binary64 s (2 * m) (e - 1) .exact = .finite s m e h.pos := by
  have total : totalExponent (2 * m) (e - 1) = totalExponent m e := by
    unfold totalExponent
    rw [Nat.log2_two_mul (Nat.ne_of_gt h.pos)]
    omega
  have first : shiftToTargetExponent .binary64 (2 * m) (e - 1) .exact =
      (.ofMantissaAndAccuracy m .exact, e) := by
    unfold shiftToTargetExponent shiftToExponent
    rw [total, h.targetExponent_eq]
    dsimp only
    rw [show (e - (e - 1)).toNat = 1 by omega, Nat.cast_one, Int.sub_add_cancel]
    refine congrArg (·, e) ?_
    show ExtendedMantissa.shiftRightOne _ = _
    simp [Nat.repeat, ExtendedMantissa.shiftRightOne,
      ExtendedMantissa.ofMantissaAndAccuracy]
  unfold roundWithAccuracy
  simp only [first, h.shift_eq, ExtendedMantissa.ofMantissaAndAccuracy,
    ExtendedMantissa.roundedMantissa, ExtendedMantissa.accuracy, Accuracy.roundToNearestEven]
  rw [dif_neg (Nat.ne_of_gt h.pos)]

end Normal

/-- A natural number with at most 53 bits is a double. -/
theorem unpack_toFloat {n : UInt64} (pos : 0 < n.toNat) (lt : n.toNat < 2 * leadingBit) :
    ∃ (m : Nat) (e : Int) (h : Normal m e), -52 ≤ e ∧ e ≤ 0 ∧
      n.toFloat.toModel.unpack = .finite .positive m e h.pos ∧
      Binary.value ⟨m, e⟩ = n.toNat := by
  have ne := Nat.ne_of_gt pos
  obtain ⟨low, high⟩ := (Nat.log2_eq_iff ne).1 rfl
  have short : n.toNat.log2 ≤ 52 := by
    have := (Nat.log2_lt ne).2 (show n.toNat < 2 ^ 53 from lt)
    omega
  obtain ⟨k, hk⟩ := Nat.exists_eq_add_of_le short
  have whole : 2 ^ n.toNat.log2 * 2 ^ k = leadingBit := by
    rw [← pow_add, ← hk]
    rfl
  have normal : Normal (n.toNat * 2 ^ k) (-k) := by
    refine ⟨?_, ?_, ?_, by omega⟩
    · rw [← whole]
      exact Nat.mul_le_mul_right _ low
    · rw [← whole, ← Nat.mul_assoc, ← pow_succ']
      exact Nat.mul_lt_mul_of_pos_right high (by positivity)
    · unfold leastExponent
      omega
  refine ⟨_, _, normal, by omega, by omega, ?_, ?_⟩
  · have target : Format.binary64.targetExponent (totalExponent n.toNat 0) = -k := by
      unfold Format.targetExponent totalExponent
      rw [show Format.binary64.minExponent = -1074 from rfl,
        show (Format.binary64.mantissaBits : Int) = 53 from rfl]
      omega
    have rounded : UnpackedFloat.ofUInt64 .binary64 n =
        .finite .positive (n.toNat * 2 ^ k) (-k) normal.pos := by
      have positive : compare (n.toNat : Int) 0 = .gt := compare_gt_iff_gt.2 (by omega)
      unfold UnpackedFloat.ofUInt64 UnpackedFloat.ofNat UnpackedFloat.ofInt UnpackedFloat.normalize
      rw [positive]
      dsimp only
      unfold UnpackedFloat.round UnpackedFloat.decreaseExponent
      rw [Int.toNat_natCast, target]
      dsimp only
      rw [show (0 - -(k : Int)).toNat = k by omega, Nat.shiftLeft_eq, Int.zero_sub]
      exact normal.round_eq
    show unpack .binary64 (pack .binary64 (UnpackedFloat.ofUInt64 .binary64 n)) = _
    rw [rounded]
    exact normal.unpack_pack
  · unfold Binary.value
    push_cast
    rw [zpow_neg, zpow_natCast, mul_assoc, mul_inv_cancel₀ (by positivity), mul_one]

/-- Dividing by a power of two is exact. -/
theorem unpack_div {x : Float} {m : Nat} {e : Int} (h : Normal m e) (least : -52 ≤ e)
    (most : e ≤ 0) (hx : x.toModel.unpack = .finite .positive m e h.pos) :
    ∃ h' : Normal m (e - 53), (x / (9007199254740992 : Float)).toModel.unpack =
      .finite .positive m (e - 53) h'.pos := by
  have unit : (9007199254740992 : Float).toModel.unpack =
    .finite .positive leadingBit 1 (by decide) := rfl
  have h' : Normal m (e - 53) :=
    ⟨h.leading, h.mantissa, by unfold leastExponent; omega, by omega⟩
  have core : UnpackedFloat.divCore .binary64 m e leadingBit 1 =
      (2 * m, e - 53 - 1, .exact) := by
    have target : Format.binary64.targetExponent
        (totalExponent m e - totalExponent leadingBit 1) = e - 53 - 1 := by
      unfold Format.targetExponent totalExponent
      rw [h.log2_eq, show leadingBit.log2 = 52 by decide,
        show Format.binary64.minExponent = -1074 from rfl,
        show (Format.binary64.mantissaBits : Int) = 53 from rfl]
      omega
    have shifted : m <<< 53 = 2 * m * leadingBit := by
      rw [Nat.shiftLeft_eq]
      unfold leadingBit
      omega
    unfold UnpackedFloat.divCore
    rw [target]
    dsimp only
    rw [show min (e - 1) (e - 53 - 1) = e - 53 - 1 by omega,
      show (e - 1 - (e - 53 - 1)).toNat = 53 by omega, shifted,
      Nat.mul_div_cancel _ (by decide), Nat.mul_mod_left]
    rfl
  have quotient : UnpackedFloat.div .binary64 x.toModel.unpack
      (9007199254740992 : Float).toModel.unpack = .finite .positive m (e - 53) h'.pos := by
    rw [hx, unit]
    unfold UnpackedFloat.div
    dsimp only
    rw [core]
    exact h'.round_twice
  refine ⟨h', ?_⟩
  show unpack .binary64 (pack .binary64 (UnpackedFloat.div .binary64 x.toModel.unpack
    (9007199254740992 : Float).toModel.unpack)) = _
  rw [quotient]
  exact h'.unpack_pack

/-- A natural number of at most 53 bits divided by `2 ^ 53`. -/
theorem decode_div {n : UInt64} (lt : n.toNat < 2 * leadingBit) :
    ∃ b, decode (n.toFloat / (9007199254740992 : Float)) = .finite false b ∧
      b.value = n.toNat / 2 ^ 53 := by
  obtain zero | pos := Nat.eq_zero_or_pos n.toNat
  · obtain rfl : n = 0 := UInt64.toNat_inj.1 zero
    exact ⟨⟨0, leastExponent⟩, rfl, by simp [Binary.value]⟩
  · obtain ⟨m, e, normal, least, most, hn, value⟩ := unpack_toFloat pos lt
    obtain ⟨normal', quotient⟩ := unpack_div normal least most hn
    refine ⟨⟨m, e - 53⟩, ?_, ?_⟩
    · have read := reads (n.toFloat / (9007199254740992 : Float))
      rw [quotient] at read
      generalize decode _ = d at read
      cases read
      rfl
    · rw [← value]
      unfold Binary.value
      rw [zpow_sub₀ (by norm_num), mul_div_assoc]
      norm_num

end Numeral
end StackScript
