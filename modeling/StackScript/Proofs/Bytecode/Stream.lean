import Mathlib.Algebra.GroupWithZero.Nat
import StackScript.Bytecode.Chunk

/-!
# StackScript.Proofs.Bytecode.Stream

Lists of instructions as octets.

* `Instruction.stream`, `Instruction.width`: the octets of a list of instructions, and their number.
* `Chunk.read?_of_code`: an instruction is read at the offset where its octets stand.
* `Chunk.code_setDistance`: changing the distance of a jump changes that instruction only.
* `Chunk.addConstant?_cases`: what adding a value does to a pool.
-/

namespace StackScript
namespace Instruction

def stream (is : List Instruction) : List UInt8 := is.flatMap encode

def width (is : List Instruction) : Nat := (is.map size).sum

@[simp] theorem stream_nil : stream [] = [] := rfl

@[simp] theorem stream_cons (i : Instruction) (is : List Instruction) :
    stream (i :: is) = i.encode ++ stream is := rfl

@[simp] theorem stream_append (is js : List Instruction) :
    stream (is ++ js) = stream is ++ stream js := by
  simp [stream]

@[simp] theorem width_nil : width [] = 0 := rfl

@[simp] theorem width_cons (i : Instruction) (is : List Instruction) :
    width (i :: is) = i.size + width is := by
  simp [width]

@[simp] theorem width_append (is js : List Instruction) :
    width (is ++ js) = width is + width js := by
  simp [width]

@[simp] theorem length_encode (i : Instruction) : i.encode.length = i.size := by
  simp [encode, size, Nat.add_comm]

@[simp] theorem length_stream (is : List Instruction) : (stream is).length = width is := by
  induction is with
  | nil => rfl
  | cons i is ih => simp [ih]

theorem width_captures (cs : List Capture) : width (cs.map .capture) = 3 * cs.length := by
  induction cs with
  | nil => rfl
  | cons c cs ih =>
    rw [List.map_cons, width_cons, ih, List.length_cons]
    simp only [size, operand, Operand.octets, List.length_cons, List.length_nil]
    omega

theorem size_pos (i : Instruction) : 0 < i.size := by
  simp only [size]
  omega

theorem size_le_three (i : Instruction) : i.size ≤ 3 := by
  cases i <;> simp [size, operand, Operand.octets]

theorem join_octets (d : UInt16) : (d >>> 8 % 256) <<< 8 ||| d % 256 = d := by
  apply UInt16.toNat_inj.1
  have hd := d.toNat_lt
  have high : (d.toNat >>> 8 % 256) <<< 8 % 65536 = 2 ^ 8 * (d.toNat / 256) := by
    rw [Nat.shiftLeft_eq, Nat.shiftRight_eq_div_pow]
    omega
  have low : d.toNat % 256 < 2 ^ 8 := by omega
  simp only [UInt16.toNat_or, UInt16.toNat_shiftLeft, UInt16.toNat_mod, UInt16.toNat_shiftRight,
    UInt16.reduceToNat, Nat.reducePow, Nat.reduceMod]
  rw [high, ← Nat.two_pow_add_eq_or_of_lt low]
  omega

/-- What is encoded is decoded again, whatever comes behind it. -/
theorem decode?_encode (i : Instruction) (rest : List UInt8) :
    decode? (i.encode ++ rest) = some i := by
  cases i with
  | jump d =>
    simpa [encode, id, operand, Operand.octets, decode?, Operand.word?] using join_octets d
  | jumpIfFalse d =>
    simpa [encode, id, operand, Operand.octets, decode?, Operand.word?] using join_octets d
  | loop d =>
    simpa [encode, id, operand, Operand.octets, decode?, Operand.word?] using join_octets d
  | capture c =>
    obtain ⟨isLocal, index⟩ := c
    cases isLocal <;> simp [encode, id, operand, Operand.octets, decode?, Operand.capture?]
  | _ => simp [encode, id, operand, Operand.octets, decode?, Operand.byte?]

end Instruction

namespace Chunk

open Instruction

theorem read?_of_code {c : Chunk} {i : Instruction} (pre post : List UInt8)
    (h : c.code.toList = pre ++ (i.encode ++ post)) : c.read? pre.length = some i := by
  have hi := i.size_le_three
  have cut : (c.code.extract pre.length (pre.length + 3)).toList =
      i.encode ++ post.take (3 - i.size) := by
    rw [Array.toList_extract, h, List.extract_eq_take_drop, Nat.add_sub_cancel_left,
      List.drop_left, List.take_append, List.take_of_length_le (by simpa using hi), length_encode]
  rw [read?, cut, decode?_encode]

/-- An instruction whose operand is a distance. -/
def IsJump (jump : UInt16 → Instruction) : Prop :=
  ∃ id, ∀ d, (jump d).encode = [id, (d >>> 8).toUInt8, d.toUInt8]

theorem isJump_jump : IsJump .jump := ⟨24, fun _ => rfl⟩

theorem isJump_jumpIfFalse : IsJump .jumpIfFalse := ⟨25, fun _ => rfl⟩

theorem code_setDistance {jump : UInt16 → Instruction} (hj : IsJump jump) {c : Chunk}
    {pre post : List UInt8} {d : UInt16} (d' : UInt16)
    (h : c.code.toList = pre ++ ((jump d).encode ++ post)) :
    (c.setDistance pre.length d').code.toList = pre ++ ((jump d').encode ++ post) := by
  obtain ⟨id, hid⟩ := hj
  simp only [setDistance, Array.toList_setIfInBounds, h, hid, List.cons_append, List.nil_append]
  rw [List.set_append_right _ _ (by omega), List.set_append_right _ _ (by omega)]
  simp

/-- A value that is added to a pool is found there, or it is pushed. -/
theorem addConstant?_cases {c c' : Chunk} {v : Value} {k : UInt8}
    (h : c.addConstant? v = some (c', k)) :
    (c' = c ∧ ∃ w, c.constants[k.toNat]? = some w ∧ (w == v) = true) ∨
    (c' = { c with constants := c.constants.push v } ∧ k.toNat = c.constants.size ∧
      c.constants.size < poolLimit) := by
  have small {i : Nat} (hi : i < poolLimit) : i.toUInt8.toNat = i := by
    have : i < 256 := hi
    simpa using this
  unfold addConstant? at h
  split at h
  next i hi =>
    split at h
    next hlt =>
      cases h
      obtain ⟨hb, same, -⟩ := Array.findIdx?_eq_some_iff_getElem.1 hi
      rw [small hlt]
      exact .inl ⟨rfl, _, Array.getElem?_eq_getElem hb, same⟩
    next => cases h
  next =>
    split at h
    next hlt =>
      cases h
      exact .inr ⟨rfl, small hlt, hlt⟩
    next => cases h

end Chunk
end StackScript
