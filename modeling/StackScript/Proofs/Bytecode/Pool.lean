import Mathlib
import StackScript.Proofs.Bytecode.Branch
import StackScript.Proofs.Machine.Ends

/-!
# StackScript.Proofs.Bytecode.Pool

What the pool of a chunk holds while instructions and constants are added to it.

* `Entry`, `extend`: what is added to a chunk, one behind the other.
* `Pooled`: no two values of a pool are equal, and there are not too many. Any chunk that is put
  together from nothing is like that (`pooled_extend`).
* `Faithful`: how a pool answers. `faithful_extend`: the index of a value leads to that value, except
  that a zero shares its entry with the zero of the other sign.
-/

namespace StackScript

namespace Value

/-- The zero of the other sign. It is another value, but an equal one. -/
def otherZero? : Value → Option Value
  | .number x => if x = 0 then some (.number (-0)) else if x = -0 then some (.number 0) else none
  | _ => none

theorem zeros_differ : (0 : Float) ≠ -0 := by decide +kernel

theorem otherZero?_eq_some {v w : Value} : v.otherZero? = some w ↔
    (v = .number 0 ∧ w = .number (-0)) ∨ (v = .number (-0) ∧ w = .number 0) := by
  have differ := zeros_differ
  cases v with
  | number x =>
    by_cases hx : x = 0
    · simp [otherZero?, hx, differ, eq_comm]
    · by_cases hx' : x = -0
      · simp [otherZero?, hx', differ, differ.symm, eq_comm]
      · simp [otherZero?, hx, hx']
  | _ => simp [otherZero?]

theorem ne_of_otherZero? {v w : Value} (h : v.otherZero? = some w) : w ≠ v := by
  have differ := zeros_differ
  obtain ⟨rfl, rfl⟩ | ⟨rfl, rfl⟩ := otherZero?_eq_some.1 h
  · simpa using differ.symm
  · simpa using differ

/-- Equal values are the same, or zeros of different sign. -/
theorem eq_or_otherZero? {v w : Value} (h : (w == v) = true) : w = v ∨ v.otherZero? = some w := by
  cases w <;> cases v <;> simp only [BEq.beq, equals, reduceCtorEq, decide_eq_true_eq] at h
  case nil.nil => exact .inl rfl
  case bool.bool a b => exact .inl (congrArg Value.bool h)
  case object.object a b => exact .inl (congrArg Value.object h)
  case number.number a b =>
    obtain ⟨-, -, rfl | ⟨rfl, rfl⟩ | ⟨rfl, rfl⟩⟩ := Float.beq_iff_ne_nan_and_eq.1 h
    · exact .inl rfl
    · exact .inr (otherZero?_eq_some.2 (.inr ⟨rfl, rfl⟩))
    · exact .inr (otherZero?_eq_some.2 (.inl ⟨rfl, rfl⟩))

theorem beq_of_otherZero? {v w : Value} (h : v.otherZero? = some w) : (w == v) = true := by
  obtain ⟨rfl, rfl⟩ | ⟨rfl, rfl⟩ := otherZero?_eq_some.1 h <;> decide +kernel

end Value

namespace Chunk

open Machine (Ends)

/-- What is added to a chunk. -/
inductive Entry where
  | instruction (i : Instruction) (line : Nat)
  | constant (v : Value)

/-- A constant that does not fit is left out. -/
def add (c : Chunk) : Entry → Chunk
  | .instruction i line => c.emit i line
  | .constant v => (c.addConstant? v).elim c Prod.fst

def extend (c : Chunk) (entries : List Entry) : Chunk := entries.foldl add c

/-- No two values of the pool are equal, and an index tells them apart. -/
structure Pooled (c : Chunk) : Prop where
  limit : c.constants.size ≤ poolLimit
  distinct : c.constants.toList.Pairwise fun v w => (v == w) = false

theorem pooled_empty : Pooled empty := ⟨Nat.zero_le _, .nil⟩

theorem addConstant?_of_mem {c : Chunk} {v w : Value} (limit : c.constants.size ≤ poolLimit)
    (hw : w ∈ c.constants) (h : (w == v) = true) : ∃ k, c.addConstant? v = some (c, k) := by
  cases hi : c.constants.findIdx? (· == v) with
  | none => exact absurd h (by simpa using Array.findIdx?_eq_none_iff.1 hi w hw)
  | some i =>
    obtain ⟨inside, -, -⟩ := Array.findIdx?_eq_some_iff_getElem.1 hi
    exact ⟨i.toUInt8, by simp [addConstant?, hi, Nat.lt_of_lt_of_le inside limit]⟩

theorem addConstant?_of_absent {c : Chunk} {v : Value} (h : ∀ w ∈ c.constants, (w == v) = false) :
    c.addConstant? v = if c.constants.size < poolLimit then
      some ({ c with constants := c.constants.push v }, c.constants.size.toUInt8) else none := by
  rw [addConstant?, Array.findIdx?_eq_none_iff.2 (by simpa using h)]

theorem absent_or_mem (c : Chunk) (v : Value) :
    (∀ w ∈ c.constants, (w == v) = false) ∨ ∃ w ∈ c.constants, (w == v) = true := by
  by_cases h : ∃ w ∈ c.constants, (w == v) = true
  · exact .inr h
  · exact .inl fun w hw => by simpa using fun e => h ⟨w, hw, e⟩

namespace Pooled

variable {c c' : Chunk} {v : Value} {k : UInt8}

/-- The pool refuses a value only if it is full of others. -/
theorem addConstant?_eq_none_iff (h : c.Pooled) : c.addConstant? v = none ↔
    c.constants.size = poolLimit ∧ ∀ w ∈ c.constants, (w == v) = false := by
  have limit := h.limit
  obtain absent | ⟨w, hw, same⟩ := c.absent_or_mem v
  · rw [addConstant?_of_absent absent]
    by_cases room : c.constants.size < poolLimit
    · simp [room, Nat.ne_of_lt room]
    · simpa [room, show c.constants.size = poolLimit by omega] using absent
  · obtain ⟨k, hk⟩ := addConstant?_of_mem limit hw same
    simp only [hk, reduceCtorEq, false_iff, not_and, not_forall]
    exact fun _ => ⟨w, hw, by simp [same]⟩

theorem push (h : c.Pooled) (room : c.constants.size < poolLimit)
    (absent : ∀ w ∈ c.constants, (w == v) = false) :
    Pooled { c with constants := c.constants.push v } := by
  refine ⟨?_, ?_⟩
  · simpa using Nat.succ_le_of_lt room
  · simp only [Array.toList_push, List.pairwise_append, List.pairwise_singleton, true_and,
      List.mem_singleton, forall_eq]
    exact ⟨h.distinct, fun w hw => absent w (by simpa using hw)⟩

theorem add (h : c.Pooled) (e : Entry) : (c.add e).Pooled := by
  cases e with
  | instruction i line => exact ⟨h.limit, h.distinct⟩
  | constant v =>
    obtain absent | ⟨w, hw, same⟩ := c.absent_or_mem v
    · simp only [Chunk.add, addConstant?_of_absent absent]
      by_cases room : c.constants.size < poolLimit
      · simpa [room] using h.push room absent
      · simpa [room] using h
    · obtain ⟨k, hk⟩ := addConstant?_of_mem h.limit hw same
      simpa [Chunk.add, hk] using h

theorem extend (h : c.Pooled) (entries : List Entry) : (c.extend entries).Pooled := by
  induction entries generalizing c with
  | nil => exact h
  | cons e entries ih => exact ih (h.add e)

/-- Values of a pool that are equal are the same. -/
theorem eq_of_beq (h : c.Pooled) {w : Value} (hv : v ∈ c.constants) (hw : w ∈ c.constants)
    (e : (v == w) = true) (e' : (w == v) = true) : v = w := by
  obtain ⟨i, hi, rfl⟩ := Array.mem_iff_getElem.1 hv
  obtain ⟨j, hj, rfl⟩ := Array.mem_iff_getElem.1 hw
  have apart {i j : Nat} (hi : i < c.constants.size) (hj : j < c.constants.size) (lt : i < j) :
      (c.constants[i] == c.constants[j]) = false :=
    List.pairwise_iff_getElem.1 h.distinct i j (by simpa using hi) (by simpa using hj) lt
  rcases Nat.lt_trichotomy i j with lt | rfl | lt
  · simp [apart hi hj lt] at e
  · rfl
  · simp [apart hj hi lt] at e'

/-- Where the index of a value leads. -/
theorem entry (h : c.Pooled) (hk : c.addConstant? v = some (c', k)) :
    ∃ w, c'.constants[k.toNat]? = some w ∧
      ((w = v ∧ ∀ z, v.otherZero? = some z → z ∉ c.constants) ∨
        (v.otherZero? = some w ∧ w ∈ c.constants)) := by
  obtain ⟨rfl, w, hw, same⟩ | ⟨rfl, size, room⟩ := addConstant?_cases hk
  · have member := Array.mem_of_getElem? hw
    refine ⟨w, hw, ?_⟩
    obtain rfl | other := Value.eq_or_otherZero? same
    · refine .inl ⟨rfl, fun z hz mem => ?_⟩
      have back : w.otherZero? = some z := hz
      have equal := Value.beq_of_otherZero? hz
      have swapped : z.otherZero? = some w := by
        obtain ⟨rfl, rfl⟩ | ⟨rfl, rfl⟩ := Value.otherZero?_eq_some.1 hz <;>
          simp [Value.otherZero?_eq_some]
      exact Value.ne_of_otherZero? hz
        (h.eq_of_beq mem member equal (Value.beq_of_otherZero? swapped))
    · exact .inr ⟨other, member⟩
  · refine ⟨v, by simp [size], .inl ⟨rfl, fun z hz mem => ?_⟩⟩
    obtain ⟨k', hk'⟩ := addConstant?_of_mem h.limit mem (Value.beq_of_otherZero? hz)
    have grown := congrArg (fun p => p.1.constants.size) (Option.some.inj (hk.symm.trans hk'))
    simp at grown

end Pooled

/-- Adding to a chunk keeps the entries of its pool. -/
theorem getElem?_add {c : Chunk} {i : Nat} {v : Value} (h : c.constants[i]? = some v) (e : Entry) :
    (c.add e).constants[i]? = some v := by
  cases e with
  | instruction => exact h
  | constant w =>
    cases hk : c.addConstant? w with
    | none => simpa [add, hk] using h
    | some p =>
      obtain ⟨c', k⟩ := p
      simp only [add, hk, Option.elim_some]
      obtain ⟨rfl, -⟩ | ⟨rfl, -⟩ := addConstant?_cases hk
      · exact h
      · rwa [Array.getElem?_push_lt (Array.getElem?_eq_some_iff.1 h).1,
          ← Array.getElem?_eq_getElem]

theorem getElem?_extend {c : Chunk} {i : Nat} {v : Value} (h : c.constants[i]? = some v)
    (entries : List Entry) : (c.extend entries).constants[i]? = some v := by
  induction entries generalizing c with
  | nil => exact h
  | cons e entries ih => exact ih (getElem?_add h e)

/-- The pool of a chunk tells its values apart and keeps them. -/
structure Faithful (c : Chunk) : Prop where
  /-- Entries never change, whatever is added. -/
  kept : ∀ entries (i : Nat) v, c.constants[i]? = some v → (c.extend entries).constants[i]? = some v
  distinct : c.constants.toList.Pairwise fun v w => (v == w) = false
  /-- A value is not added beside an equal one. -/
  shared : ∀ v w, w ∈ c.constants → (w == v) = true → ∃ k, c.addConstant? v = some (c, k)
  /-- A value that no entry is equal to is the next entry. -/
  added : ∀ v c' k, c.addConstant? v = some (c', k) → (∀ w ∈ c.constants, (w == v) = false) →
    c' = { c with constants := c.constants.push v }
  /-- A full pool refuses all other values. -/
  full : ∀ v, c.addConstant? v = none ↔
    c.constants.size = poolLimit ∧ ∀ w ∈ c.constants, (w == v) = false
  /-- The entry of a value is that value, unless the zero of the other sign was there before. -/
  entry : ∀ v c' k, c.addConstant? v = some (c', k) → ∃ w, c'.constants[k.toNat]? = some w ∧
    ((w = v ∧ ∀ z, v.otherZero? = some z → z ∉ c.constants) ∨
      (v.otherZero? = some w ∧ w ∈ c.constants))
  /-- The entry is what an instruction with the index pushes, whatever is added in between. -/
  pushed : ∀ v c' k w entries, c.addConstant? v = some (c', k) →
    c'.constants[k.toNat]? = some w → ∀ (m : Machine) call outer f, m.frames = call :: outer →
      m.heap.function? call.function = some f → f.chunk = c'.extend entries →
      Ends (Machine.execute (.constant k)) m
        (fun _ m' => m' = { m with stack := m.stack.push w })
        fun s m' => s = .fault .stackOverflow ∧ Machine.stackLimit ≤ m.stack.size ∧ m' = m

/-- Pushing fails only on a full stack. -/
theorem push_or_full (m : Machine) (v : Value) : Ends (Machine.push v) m
    (fun _ m' => m' = { m with stack := m.stack.push v })
    fun s m' => s = .fault .stackOverflow ∧ Machine.stackLimit ≤ m.stack.size ∧ m' = m := by
  refine .bind (.get ?_)
  split
  next => exact rfl
  next full => exact ⟨rfl, Nat.le_of_not_lt full, rfl⟩

/-- The pools of all chunks that are put together from nothing are faithful. -/
theorem faithful_extend (entries : List Entry) : Faithful (empty.extend entries) := by
  have pooled : Pooled (empty.extend entries) := pooled_empty.extend entries
  refine ⟨fun more i v h => getElem?_extend h more, pooled.distinct,
    fun v w hw same => addConstant?_of_mem pooled.limit hw same, fun v c' k hk absent => ?_,
    fun v => pooled.addConstant?_eq_none_iff, fun v c' k hk => pooled.entry hk,
    fun v c' k w more hk hw m call outer f hf hr chunk => ?_⟩
  · rw [addConstant?_of_absent absent] at hk
    split at hk
    · cases hk
      rfl
    · cases hk
  · have found : f.chunk.constants[k.toNat]? = some w := chunk ▸ getElem?_extend hw more
    exact .bind (.constant hf hr found (push_or_full m w))

/-- The negative zero is given the index of zero, whose bits are others. -/
theorem addConstant?_negative_zero :
    let c := empty.extend [.constant (.number 0)]
    c.addConstant? (.number (-0)) = some (c, 0) ∧ c.constants[0]? = some (.number 0) ∧
      Value.number 0 ≠ .number (-0) ∧ (0 : Float).toBits ≠ (-0 : Float).toBits := by
  decide +kernel

end Chunk
end StackScript
