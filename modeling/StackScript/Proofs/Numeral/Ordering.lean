import Mathlib
import StackScript.Numeral.Binary

/-!
# StackScript.Proofs.Numeral.Ordering

Doubles compared as numbers.

* `Decoded.place?`: where a double stands on the extended number line. Both zeros stand at zero,
  NaN stands nowhere.
* `ordering?`: the order of those places. There is none if one of the doubles is NaN.
* `lt_eq`, `gt_eq`, `beq_eq`: the comparisons of doubles are those of `ordering?`.
-/

namespace StackScript
namespace Numeral

open Float.Model (UnpackedFloat Format)
open Float.Model.UnpackedFloat (Sign unpack unpackSign unpackExponent unpackMantissa)

/-- The number that a magnitude is. -/
def Binary.value (b : Binary) : ℚ := b.mantissa * (2 : ℚ) ^ b.exponent

/-- A number with a sign in front of it. -/
def signed (negative : Bool) (b : Binary) : ℚ := if negative then -b.value else b.value

/-- A number on the extended number line. -/
def point (x : ℚ) : WithBot (WithTop ℚ) := (x : WithTop ℚ)

/-- Where a double stands on the extended number line; NaN stands nowhere. -/
def Decoded.place? : Decoded → Option (WithBot (WithTop ℚ))
  | .nan => none
  | .infinite negative => some (if negative then ⊥ else ⊤)
  | .finite negative b => some (point (signed negative b))

/-- How two doubles compare as numbers. -/
def ordering? (x y : Float) : Option Ordering := do
  return compare (← (decode x).place?) (← (decode y).place?)

/-- The one form that a finite double has. -/
structure Canonical (m : Nat) (e : Int) : Prop where
  mantissa : m < 2 * leadingBit
  exponent : leastExponent ≤ e
  leading : e = leastExponent ∨ leadingBit ≤ m

def isNegative : Sign → Bool
  | .negative => true
  | .positive => false

/-- The logical model of doubles says the same as their bits. -/
inductive Reads : UnpackedFloat → Decoded → Prop where
  | nan : Reads .notANumber .nan
  | infinite (s : Sign) : Reads (.infinity s) (.infinite (isNegative s))
  | zero (s : Sign) : Reads (.zero s) (.finite (isNegative s) ⟨0, leastExponent⟩)
  | finite (s : Sign) {m : Nat} {e : Int} (h : 0 < m) : Canonical m e →
      Reads (.finite s m e h) (.finite (isNegative s) ⟨m, e⟩)

section Bits

theorem Reads.of_eq {s : Sign} {m : Nat} {e e' : Int} (h : 0 < m) (he : e = e')
    (c : Canonical m e') : Reads (.finite s m e h) (.finite (isNegative s) ⟨m, e'⟩) := by
  subst he
  exact .finite s h c

theorem isNegative_ofBitVec (b : BitVec 1) :
    isNegative (Sign.ofBitVec b) = decide (b.toNat = 1) := by
  decide +revert

theorem toNat_unpackSign (b : BitVec 64) :
    (@unpackSign .binary64 b).toNat = b.toNat / signBit := by
  have lt := b.isLt
  simp [unpackSign, signBit, Nat.shiftRight_eq_div_pow]
  omega

theorem toNat_unpackExponent (b : BitVec 64) :
    (@unpackExponent .binary64 b).toNat = b.toNat / leadingBit % 2048 := by
  simp [unpackExponent, leadingBit, Nat.shiftRight_eq_div_pow]

theorem toNat_unpackMantissa (b : BitVec 64) :
    (@unpackMantissa .binary64 b).toNat = b.toNat % leadingBit := by
  simp [unpackMantissa, leadingBit]

theorem isNegative_unpackSign (bits : UInt64) :
    isNegative (Sign.ofBitVec (@unpackSign .binary64 bits.toBitVec)) =
      decide (signBit ≤ bits.toNat) := by
  have lt := bits.toNat_lt
  have sign : _ = bits.toNat / signBit := toNat_unpackSign bits.toBitVec
  rw [isNegative_ofBitVec, sign, decide_eq_decide]
  unfold signBit
  omega

/-- A normal mantissa has its leading bit. -/
theorem toNat_leading (b : BitVec 64) :
    (1#1 ++ @unpackMantissa .binary64 b).toNat = leadingBit + b.toNat % leadingBit := by
  have below : b.toNat % leadingBit < leadingBit := Nat.mod_lt _ (by decide)
  rw [BitVec.toNat_append, toNat_unpackMantissa, ← Nat.shiftLeft_add_eq_or_of_lt below]
  rfl

theorem reads_bits (bits : UInt64) : Reads (unpack .binary64 bits.toBitVec) (decodeBits bits) := by
  have sign := isNegative_unpackSign bits
  have exponent : _ = bits.toNat / leadingBit % 2048 := toNat_unpackExponent bits.toBitVec
  have mantissa : _ = bits.toNat % leadingBit := toNat_unpackMantissa bits.toBitVec
  have leading : _ = leadingBit + bits.toNat % leadingBit := toNat_leading bits.toBitVec
  have below : bits.toNat % leadingBit < leadingBit := Nat.mod_lt _ (by decide)
  have ones : (-1#11).toNat = specialExponent := rfl
  have bias : (Format.binary64.exponentBias : Int) = 1023 := rfl
  unfold unpack decodeBits
  simp only [← BitVec.toNat_inj, exponent, mantissa, leading, ← sign, ones, bias, BitVec.toNat_ofNat,
    Nat.zero_mod]
  generalize Sign.ofBitVec (@unpackSign .binary64 bits.toBitVec) = s
  generalize bits.toNat / leadingBit % 2048 = field
  by_cases special : field = specialExponent
  · rw [if_pos special, if_pos special]
    split
    · exact .infinite s
    · exact .nan
  · rw [if_neg special, if_neg special]
    by_cases least : field = 0
    · rw [if_pos least, if_pos least]
      split
      next none =>
        rw [none]
        exact .zero s
      next some =>
        refine .of_eq _ ?_ ⟨by omega, Int.le_refl _, .inl rfl⟩
        unfold leastExponent
        omega
    · rw [if_neg least, if_neg least]
      refine .of_eq _ ?_ ⟨by omega, by omega, .inr (Nat.le_add_right _ _)⟩
      unfold leastExponent
      omega

theorem reads (x : Float) : Reads x.toModel.unpack (decode x) := reads_bits x.toBits

end Bits

section Values

variable {m n : Nat} {d e : Int}

theorem value_pos (h : 0 < m) : 0 < Binary.value ⟨m, e⟩ := by
  unfold Binary.value
  positivity

@[simp]
theorem signed_zero (negative : Bool) : signed negative ⟨0, e⟩ = 0 := by
  cases negative <;> simp [signed, Binary.value]

theorem signed_neg (h : 0 < m) : signed true ⟨m, e⟩ < 0 := neg_lt_zero.2 (value_pos h)

theorem signed_pos (h : 0 < m) : 0 < signed false ⟨m, e⟩ := value_pos h

theorem strictMono_value (e : Int) : StrictMono fun m => Binary.value ⟨m, e⟩ := by
  intro m n h
  simp only [Binary.value]
  gcongr

theorem compare_map {α β : Type} [LinearOrder α] [LinearOrder β] {f : α → β} (hf : StrictMono f)
    (x y : α) : compare (f x) (f y) = compare x y := by
  simpa only [cmp_eq_compare] using hf.cmp_map_eq x y

namespace Canonical

/-- Of two doubles in canonical form the one with the larger exponent is the larger one. -/
theorem value_lt (hm : Canonical m d) (hn : Canonical n e) (h : d < e) :
    Binary.value ⟨m, d⟩ < Binary.value ⟨n, e⟩ := by
  have leading : leadingBit ≤ n := hn.leading.resolve_left (by have := hm.exponent; omega)
  have twice : m < n * 2 := by
    have := hm.mantissa
    omega
  calc (m : ℚ) * 2 ^ d < (n * 2 : ℕ) * 2 ^ d := by gcongr
    _ = n * 2 ^ (d + 1) := by
      rw [zpow_add_one₀ (by norm_num)]
      push_cast
      ring
    _ ≤ n * 2 ^ e := by
      gcongr
      · norm_num
      · omega

theorem compare_value (hm : Canonical m d) (hn : Canonical n e) :
    compare (Binary.value ⟨m, d⟩) (Binary.value ⟨n, e⟩) = (compare d e).then (compare m n) := by
  obtain h | rfl | h := lt_trichotomy d e
  · rw [compare_lt_iff_lt.2 h, compare_lt_iff_lt.2 (hm.value_lt hn h)]
    rfl
  · rw [compare_eq_iff_eq.2 rfl, Ordering.eq_then]
    exact compare_map (strictMono_value d) m n
  · rw [compare_gt_iff_gt.2 h, compare_gt_iff_gt.2 (hn.value_lt hm h)]
    rfl

end Canonical

end Values

section Points

variable (x y : ℚ)

theorem compare_neg : compare (-x) (-y) = (compare x y).swap := by
  have anti : StrictAnti fun x : ℚ => -x := fun _ _ h => neg_lt_neg h
  rw [← cmp_eq_compare, ← cmp_eq_compare, cmp_swap]
  exact anti.cmp_map_eq x y

theorem compare_point : compare (point x) (point y) = compare x y := by
  have mono : StrictMono point := by
    intro x y h
    simpa [point] using h
  exact compare_map mono x y

theorem bot_point : compare ⊥ (point x) = .lt := compare_lt_iff_lt.2 (WithBot.bot_lt_coe _)

theorem point_bot : compare (point x) ⊥ = .gt := compare_gt_iff_gt.2 (WithBot.bot_lt_coe _)

theorem top_point : compare ⊤ (point x) = .gt :=
  compare_gt_iff_gt.2 (WithBot.coe_lt_coe.2 (WithTop.coe_lt_top _))

theorem point_top : compare (point x) ⊤ = .lt :=
  compare_lt_iff_lt.2 (WithBot.coe_lt_coe.2 (WithTop.coe_lt_top _))

end Points

/-- Comparing signs, exponents and mantissas compares the numbers. -/
theorem Reads.compare {u v : UnpackedFloat} {p q : Decoded} (hu : Reads u p) (hv : Reads v q) :
    u.compare v = do return compare (← p.place?) (← q.place?) := by
  cases hu with
  | nan => rfl
  | infinite s =>
    cases hv with
    | nan => cases s <;> rfl
    | infinite t => cases s <;> cases t <;> rfl
    | zero | finite =>
      cases s <;> simp [UnpackedFloat.compare, Decoded.place?, isNegative, bot_point, top_point]
  | zero s =>
    cases hv with
    | nan => rfl
    | infinite t =>
      cases t <;> simp [UnpackedFloat.compare, Decoded.place?, isNegative, point_bot, point_top]
    | zero t => simp [UnpackedFloat.compare, Decoded.place?]
    | finite t h c =>
      cases t
      · simp [UnpackedFloat.compare, Decoded.place?, isNegative, compare_point,
          compare_gt_iff_gt.2 (signed_neg h)]
      · simp [UnpackedFloat.compare, Decoded.place?, isNegative, compare_point,
          compare_lt_iff_lt.2 (signed_pos h)]
  | finite s h c =>
    cases hv with
    | nan => cases s <;> rfl
    | infinite t =>
      cases t <;> cases s <;>
        simp [UnpackedFloat.compare, Decoded.place?, isNegative, point_bot, point_top]
    | zero t =>
      cases s
      · simp [UnpackedFloat.compare, Decoded.place?, isNegative, compare_point,
          compare_lt_iff_lt.2 (signed_neg h)]
      · simp [UnpackedFloat.compare, Decoded.place?, isNegative, compare_point,
          compare_gt_iff_gt.2 (signed_pos h)]
    | finite t h' c' =>
      cases s <;> cases t
      · simp [UnpackedFloat.compare, Decoded.place?, isNegative, compare_point, signed, compare_neg,
          c.compare_value c']
      · simp [UnpackedFloat.compare, Decoded.place?, isNegative, compare_point,
          compare_lt_iff_lt.2 ((signed_neg h).trans (signed_pos h'))]
      · simp [UnpackedFloat.compare, Decoded.place?, isNegative, compare_point,
          compare_gt_iff_gt.2 ((signed_neg h').trans (signed_pos h))]
      · simp [UnpackedFloat.compare, Decoded.place?, isNegative, compare_point, signed,
          c.compare_value c']

theorem compare_eq_ordering? (x y : Float) : x.toModel.compare y.toModel = ordering? x y :=
  (reads x).compare (reads y)

theorem beq_eq (x y : Float) : (x == y) = (ordering? x y == some .eq) := by
  rw [← compare_eq_ordering?]
  rfl

theorem lt_eq (x y : Float) : decide (x < y) = (ordering? x y == some .lt) := by
  rw [← compare_eq_ordering?]
  change decide ((decide (x.toModel < y.toModel)) = true) = _
  rw [Bool.decide_eq_true]
  change decide (x.toModel.lt y.toModel = true) = _
  rw [Bool.decide_eq_true]
  rfl

theorem ordering?_swap (x y : Float) : ordering? y x = (ordering? x y).map Ordering.swap := by
  unfold ordering?
  cases (decode x).place? with
  | none => cases (decode y).place? <;> rfl
  | some p =>
    cases (decode y).place? with
    | none => rfl
    | some q => exact congrArg some Std.OrientedCmp.eq_swap

theorem gt_eq (x y : Float) : decide (y < x) = (ordering? x y == some .gt) := by
  rw [lt_eq, ordering?_swap]
  cases ordering? x y with
  | none => rfl
  | some o => cases o <;> rfl

theorem Reads.place?_eq_none {u : UnpackedFloat} {p : Decoded} (h : Reads u p) :
    p.place? = none ↔ u.isNaN = true := by
  cases h <;> simp [Decoded.place?, UnpackedFloat.isNaN]

/-- Nothing compares with NaN. -/
theorem ordering?_eq_none (x y : Float) :
    ordering? x y = none ↔ x.isNaN = true ∨ y.isNaN = true := by
  have hx : _ ↔ x.isNaN = true := (reads x).place?_eq_none
  have hy : _ ↔ y.isNaN = true := (reads y).place?_eq_none
  rw [← hx, ← hy]
  unfold ordering?
  cases (decode x).place? <;> cases (decode y).place? <;> simp

end Numeral
end StackScript
