import Mathlib
import StackScript.Machine.World
import StackScript.Proofs.Numeral.Exact

/-!
# StackScript.Proofs.Machine.Generator

The random generator runs through all states.

* `stride`: many draws at once are one multiplication and one addition too.
* `minimalPeriod_next`: `2 ^ 63` draws change the highest bit of a state and nothing else, so it
  takes `2 ^ 64` to come back.
* `bijective_nth`: that many draws meet every state once.
* `represents_iff`: the number drawn is the multiple of `2 ^ -53` that the 53 high bits count.
* `single_cycle`: the permutation is one cycle, and every one of the numbers is drawn equally often.
-/

open Function (Bijective Injective Surjective minimalPeriod)

namespace StackScript
namespace Machine

open Numeral (decode leadingBit decode_div)
open scoped UInt64.CommRing

namespace World

/-- Where the generator stands. One that was not seeded yet stands at the entropy. -/
def state (w : World) : UInt64 := w.generator.getD w.entropy

/-- The world after a draw. -/
def advance (w : World) : World := { w with generator := some (Generator.next w.state) }

/-- The number that comes after `n` others. -/
def drawn (w : World) (n : Nat) : Float := Generator.fraction (advance^[n + 1] w).state

/-- A run of draws is a run of the generator. -/
theorem state_advance_iterate (w : World) (n : Nat) :
    (advance^[n] w).state = Generator.next^[n] w.state := by
  induction n with
  | zero => rfl
  | succ n ih =>
    rw [Function.iterate_succ_apply', Function.iterate_succ_apply', ← ih]
    rfl

end World

namespace Generator

section Period

/-- Multiplier and increment of `2 ^ k` draws at once. -/
def stride : Nat → UInt64 × UInt64
  | 0 => (multiplier, increment)
  | k + 1 =>
    let (a, c) := stride k
    (a * a, c * a + c)

theorem iterate_stride (k : Nat) (s : UInt64) :
    next^[2 ^ k] s = s * (stride k).1 + (stride k).2 := by
  induction k generalizing s with
  | zero => rfl
  | succ k ih =>
    rw [pow_succ, Nat.mul_two, Function.iterate_add_apply, ih, ih, stride]
    ring

/-- Half way only the highest bit has changed, and as many draws later it has changed back. -/
theorem minimalPeriod_next (s : UInt64) : minimalPeriod next s = 2 ^ 64 := by
  have half : next^[2 ^ 63] s = s + 0x8000000000000000 := by
    rw [iterate_stride, show stride 63 = (1, 0x8000000000000000) by decide +kernel, mul_one]
  have whole : next^[2 ^ 64] s = s := by
    rw [iterate_stride, show stride 64 = (1, 0) by decide +kernel, mul_one, add_zero]
  have prime : Fact (Nat.Prime 2) := ⟨Nat.prime_two⟩
  refine Function.minimalPeriod_eq_prime_pow (k := 63) (fun h => ?_) whole
  have same : s + 0x8000000000000000 = s := half.symm.trans h
  exact absurd (add_eq_left.1 same) (by decide)

/-- The states of a cycle, in the order in which they are met. -/
def nth (s : UInt64) (n : Fin UInt64.size) : UInt64 := next^[n] s

def wordEquiv : UInt64 ≃ Fin UInt64.size := ⟨UInt64.toFin, UInt64.ofFin, fun _ => rfl, fun _ => rfl⟩

/-- No state comes twice within a period, and the period is as long as there are states. -/
theorem bijective_nth (s : UInt64) : Bijective (nth s) := by
  have injective : Injective (nth s) := fun i j h => by
    have inj := Function.iterate_injOn_Iio_minimalPeriod (f := next) (x := s)
    rw [minimalPeriod_next] at inj
    exact Fin.ext (inj i.isLt j.isLt h)
  refine ⟨injective, ?_⟩
  have surjective : Surjective (nth s ∘ wordEquiv) :=
    Finite.surjective_of_injective (injective.comp wordEquiv.injective)
  exact surjective.of_comp

/-- A state is drawn from the one before it in its cycle. -/
theorem bijective_next : Bijective next := by
  refine Finite.surjective_iff_bijective.1 fun s => ?_
  have positive : 0 < minimalPeriod next s := (minimalPeriod_next s).symm ▸ Nat.two_pow_pos 64
  obtain ⟨n, period⟩ := Nat.exists_eq_succ_of_ne_zero (Nat.ne_of_gt positive)
  have whole : next^[n + 1] s = s := by
    rw [← Nat.succ_eq_add_one, ← period]
    exact Function.iterate_minimalPeriod
  exact ⟨next^[n] s, (Function.iterate_succ_apply' next n s).symm.trans whole⟩

end Period

section Numbers

/-- The double is `k` times `2 ^ -53`, exactly. -/
def Represents (x : Float) (k : Nat) : Prop :=
  ∃ b, decode x = .finite false b ∧ b.value = k / 2 ^ 53

theorem Represents.unique {x : Float} {k l : Nat} (hk : Represents x k) (hl : Represents x l) :
    k = l := by
  obtain ⟨b, eq, value⟩ := hk
  obtain ⟨c, eq', value'⟩ := hl
  obtain rfl : b = c := by
    rw [eq] at eq'
    cases eq'
    rfl
  have same : (k : ℚ) / 2 ^ 53 = l / 2 ^ 53 := value.symm.trans value'
  exact Nat.cast_injective ((div_left_inj' (by norm_num)).1 same)

theorem toNat_high (s : UInt64) : (s >>> 11).toNat = s.toNat / 2 ^ 11 := by
  rw [UInt64.toNat_shiftRight, Nat.shiftRight_eq_div_pow]
  rfl

theorem high_lt (s : UInt64) : s.toNat / 2 ^ 11 < 2 ^ 53 := by
  have := s.toNat_lt
  omega

theorem represents_fraction (s : UInt64) : Represents (fraction s) (s.toNat / 2 ^ 11) := by
  have lt : (s >>> 11).toNat < 2 * leadingBit := (toNat_high s).trans_lt (high_lt s)
  obtain ⟨b, eq, value⟩ := decode_div lt
  exact ⟨b, eq, value.trans (by rw [toNat_high])⟩

theorem represents_iff {s : UInt64} {k : Nat} : Represents (fraction s) k ↔ s.toNat / 2 ^ 11 = k :=
  ⟨fun h => (represents_fraction s).unique h, fun h => h ▸ represents_fraction s⟩

/-- The states that agree in their high bits follow each other. -/
theorem image_high {k : Nat} (lt : k < 2 ^ 53) :
    UInt64.toNat '' {s : UInt64 | s.toNat / 2 ^ 11 = k} =
      Set.Ico (k * 2 ^ 11) ((k + 1) * 2 ^ 11) := by
  ext n
  rw [Set.mem_Ico]
  constructor
  · rintro ⟨s, high, rfl⟩
    rw [Set.mem_ofPred_eq] at high
    omega
  · rintro ⟨low, high⟩
    have small : n < 2 ^ 64 := by omega
    refine ⟨UInt64.ofNat n, ?_, UInt64.toNat_ofNat_of_lt' small⟩
    rw [Set.mem_ofPred_eq, UInt64.toNat_ofNat_of_lt' small]
    omega

theorem ncard_high {k : Nat} (lt : k < 2 ^ 53) :
    {s : UInt64 | s.toNat / 2 ^ 11 = k}.ncard = 2 ^ 11 := by
  have injective : Injective UInt64.toNat := fun _ _ => UInt64.toNat_inj.1
  rw [← Set.ncard_image_of_injective _ injective, image_high lt, ← Finset.coe_Ico,
    Set.ncard_coe_finset, Nat.card_Ico]
  omega

end Numbers

/-- From each state the generator comes to each of the others, once in `2 ^ 64` draws, and the numbers
drawn on the way are the multiples of `2 ^ -53` below one, each of them `2 ^ 11` times. -/
theorem single_cycle :
    Bijective next ∧ (∀ s, minimalPeriod next s = 2 ^ 64) ∧
    (∀ s t, ∃! n : Fin (2 ^ 64), next^[n] s = t) ∧
    (∀ (w : World) (h : Heap) (v : Value),
      Builtin.random.call w h v = .ok (.number (w.drawn 0), w.advance, h)) ∧
    (∀ (w : World) (n : Nat), (World.advance^[n] w).state = next^[n] w.state) ∧
    (∀ (w : World) (n : Nat), ∃ k : Fin (2 ^ 53), Represents (w.drawn n) k) ∧
    ∀ (w : World) (k : Fin (2 ^ 53)),
      {n : Fin (2 ^ 64) | Represents (w.drawn n) k}.ncard = 2 ^ 11 := by
  refine ⟨bijective_next, minimalPeriod_next, fun s => (bijective_nth s).existsUnique,
    fun _ _ _ => rfl, World.state_advance_iterate,
    fun w n => ⟨⟨_, high_lt _⟩, represents_fraction _⟩, fun w k => ?_⟩
  have drawn (n : Fin (2 ^ 64)) :
      Represents (w.drawn n) k ↔ (nth (next w.state) n).toNat / 2 ^ 11 = k := by
    unfold World.drawn
    rw [World.state_advance_iterate, represents_iff, Function.iterate_succ_apply]
    rfl
  obtain ⟨injective, surjective⟩ := bijective_nth (next w.state)
  simp only [drawn]
  exact (Set.ncard_preimage_of_injective_subset_range injective fun s _ => surjective s).trans
    (ncard_high k.isLt)

end Generator
end Machine
end StackScript
