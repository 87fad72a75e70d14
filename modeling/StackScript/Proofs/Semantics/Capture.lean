import StackScript.Proofs.Semantics.Operate

/-!
# StackScript.Proofs.Semantics.Capture

Closures are made.

* `Reads`: a machine while captures are read.
* `Captured`: the upvalue for a capture stands for the captured variable.
* `Fetched.makesClosure`: what the instruction does that makes a closure, given what the variables
  around the closure are. The variable that the closure itself goes to can be one of them.
-/

namespace StackScript
namespace Semantics

open Compile (follow)
open Instruction (width stream)
open Machine

/-- While captures are read, nothing but upvalues comes to the heap. -/
structure Reads (m m' : Machine) : Prop where
  calm : m.heap.Calm m'.heap
  globals : m'.globals = m.globals
  output : m'.output = m.output
  world : m'.world = m.world

theorem reads_captures (m : Machine) (base n : Nat) (refs : Array Ref) :
    Ends (captures base n refs) m (fun _ => Reads m) fun _ => Reads m := by
  refine keeps_captures (I := Reads m) (fun m₁ frames r => ⟨r.calm, r.globals, r.output, r.world⟩)
    (fun m₁ i r => ?_) base n refs m ⟨.refl _, rfl, rfl, rfl⟩
  unfold captureSlot
  split
  · exact r
  · exact ⟨r.calm.trans (.allocate _ nofun nofun), r.globals, r.output, r.world⟩

/-- What a closure has for a capture, given the places of the stack. -/
def Captured (A : Activation) (τ : Ties) (slots : List Slot) (x : Capture) (r : Ref) : Prop :=
  if x.isLocal then ∀ c, slots[A.below.length + x.index.toNat]? = some (.cell c) → τ.cell r = some c
  else A.upvalues[x.index.toNat]? = some r

section Closures

variable {H : Heap} {A : Activation} {τ : Ties} {s : Store} {ip : Nat} {ℓ ℓ' : List (String × Nat)}
  {m : Machine}

/-- The upvalues of a closure made in a call, given what stands for each capture. -/
theorem backs_captured {cs : Array Capture} {refs : Array Ref} (le : A.ties.Le τ)
    (each : List.Forall₂ (Captured A τ (A.slots ℓ' [])) cs.toList refs.toList) :
    Backs τ refs (cs :: A.chain) (ℓ' :: A.levels) where
  count captures hc := by
    obtain rfl := Option.some.inj hc
    rw [← Array.length_toList, each.length_eq, Array.length_toList]
  tied i level slot c hf hc := by
    have entry {x : Capture} (hx : cs[i.toNat]? = some x) :
        ∃ r, refs[i.toNat]? = some r ∧ Captured A τ (A.slots ℓ' []) x r := by
      rw [← Array.getElem?_toList] at hx
      obtain ⟨r, hr, captured⟩ := forall₂_getElem? each hx
      exact ⟨r, by rwa [← Array.getElem?_toList], captured⟩
    unfold follow at hf
    split at hf
    next => cases hf
    next slot' hx =>
      cases hf
      obtain ⟨r, hr, captured⟩ := entry hx
      exact ⟨r, hr, captured c (slots_of_cell? hc [])⟩
    next j hx =>
      obtain ⟨r, hr, captured⟩ := entry hx
      have captured : A.upvalues[j.toNat]? = some r := captured
      obtain ⟨⟨level', slot'⟩, hf, e⟩ := Option.map_eq_some_iff.1 hf
      cases e
      cases level with
      | zero => exact (follow_ne_zero hf).elim
      | succ level =>
        have outer : A.levels.cell? level slot = some c := by simpa [Levels.cell?] using hc
        obtain ⟨r', hr', tied⟩ := A.backs.tied j level slot c hf outer
        obtain rfl := Option.some.inj (captured.symm.trans hr')
        exact ⟨r, hr, le.cell _ _ tied⟩

/-- A closure of a function in the pool is put on the stack. The variables that it may capture have
their places in `stack`, as if all of them were there already. -/
theorem Fetched.makesClosure (r : Fetched H A τ s ip ℓ [] m) {cells : Array Val}
    {stack : Array Value} (a : Celled τ cells (A.slots ℓ' []) stack m.heap) {k : UInt8} {x : Ref}
    {g : Function} {f : Lambda} {cs : Array Capture}
    (pool : A.body.chunk.constants[k.toNat]? = some (.object x)) (hg : H.function? x = some g)
    (count : g.upvalueCount = cs.size) (code : Coded A ip (cs.toList.map .capture))
    (locals : ∀ c ∈ cs, c.isLocal = true →
      ∃ d, (A.slots ℓ' [])[A.below.length + c.index.toNat]? = some (.cell d))
    (chained : ∀ c ∈ cs, c.isLocal = false → c.index.toNat < A.upvalues.size)
    (realizes : ∀ {τ' : Ties} {refs : Array Ref},
      Backs τ' refs (cs :: A.chain) (ℓ' :: A.levels) →
      Realizes H τ' f ⟨x, refs⟩ g (cs :: A.chain) (ℓ' :: A.levels)) :
    Ends (makeClosure k) m
      (fun _ m' => m.stack.size < stackLimit ∧ (m'.heap.size ≤ UInt32.size →
        ∃ τ' w, m'.frames = A.frame (ip + width (cs.toList.map .capture)) :: A.outer ∧
          m'.stack = m.stack.push w ∧ Later τ m.heap τ' m'.heap ∧
          Celled τ' cells (A.slots ℓ' []) stack m'.heap ∧
          Backed H τ' { s with closures := s.closures.push f } m'.globals m'.heap ∧
          Same τ' m'.heap (.closure s.closures.size) w ∧ m'.output = s.output ∧
          m'.world = s.world))
      fun e m' => ¬m.stack.size < stackLimit ∧ e = .fault .stackOverflow ∧
        m'.output = s.output := by
  have start : Gathers m.heap ({ A.frame 0 with ip } :: A.outer) m.stack
      (Celled.shape (A.slots ℓ' [])) m :=
    ⟨r.frames, rfl, r.hosts, .refl _, fun _ _ => .inl, fun _ => a.tracked r.tracked⟩
  obtain ⟨pre, post, code, at_⟩ := code
  have code : A.body.chunk.code.toList =
      stream pre ++ (stream (cs.toList.map .capture) ++ stream post) := by
    rw [A.encoded, code, Instruction.stream_append, Instruction.stream_append]
  have locals : ∀ c ∈ cs.toList, c.isLocal = true →
      Allows (Celled.shape (A.slots ℓ' [])) (A.below.length + c.index.toNat) := fun c hc hl =>
    Celled.allows_shape.2 (locals c (Array.mem_toList_iff.1 hc) hl)
  have chained : ∀ c ∈ cs.toList, c.isLocal = false → c.index.toNat < A.upvalues.size :=
    fun c hc => chained c (Array.mem_toList_iff.1 hc)
  refine .bind (.constant r.frames r.function pool (.bind (.get ?_)))
  rw [r.agrees.backed.kept.function? hg]
  refine .bind (.frame r.frames (.bind ?_))
  rw [count, ← Array.length_toList]
  refine ((ends_captures (A.frame 0) r.function r.closure
    locals chained _ _ code (by rw [at_, Instruction.length_stream]) start).and
    (reads_captures m A.below.length cs.toList.length #[])).imp (fun refs m₁ => ?_)
    fun _ _ no => no.1.elim
  rintro ⟨⟨g₁, -, gathered⟩, reads⟩
  have room : m₁.stack.size < stackLimit ↔ m.stack.size < stackLimit := by rw [g₁.stack]
  refine .bind (.allocate (ends_push_cases (fun fits => ⟨room.1 fits, fun small => ?_⟩) fun full =>
    ⟨fun fits => full (room.2 fits), rfl, reads.output.trans r.agrees.output⟩))
  have small₁ : m₁.heap.size ≤ UInt32.size :=
    Nat.le_trans (m₁.heap.extends_allocate _).size_le small
  obtain ⟨news, e, each⟩ := gathered small₁
  obtain rfl : refs = news := by rw [e, Array.empty_append]
  obtain ⟨τ₁, le, arrays, closures, celled, isOpen⟩ := a.gather g₁.extends_ (g₁.tracked small₁)
  have backs : Backs τ₁ refs (cs :: A.chain) (ℓ' :: A.levels) := by
    refine backs_captured (r.later.ties.trans le) (each.imp fun c q captured => ?_)
    unfold CapturedAs at captured
    unfold Captured
    split
    next hl =>
      rw [if_pos hl] at captured
      exact fun d hd => isOpen q _ d captured hd
    next hl =>
      rwa [if_neg hl] at captured
  have backed := r.agrees.backed.calm reads.calm le arrays closures small₁
  have later : Later τ m.heap τ₁ m₁.heap := ⟨le, reads.calm.kept⟩
  obtain ⟨later', made, backed'⟩ := backed.newClosure (realizes backs) small
  refine ⟨_, _, g₁.frames, by rw [← g₁.stack], later.trans later',
    celled.later later' rfl fun _ => upvalue?_allocate nofun, ?_, made,
    reads.output.trans r.agrees.output, reads.world.trans r.agrees.world⟩
  exact reads.globals ▸ backed'

end Closures

end Semantics
end StackScript
