import StackScript.Proofs.Machine.Step

/-!
# StackScript.Proofs.Machine.Invariant

What holds of a machine between two steps, as long as handles do not run out.

* `Invariant`: the calls share the stack, the open upvalues are tracked, closures are valid.
* `Ahead`: the innermost call in front of an instruction of its layout.
* `Invariant.step`: a step keeps the invariant and never fails because of the bytecode; captured
  variables have the values that `Expects` tells.
-/

namespace StackScript
namespace Machine

open Bytecode
open Bytecode.Shape (temporaries Below)
open Instruction (width stream)

structure Invariant (m : Machine) : Prop where
  hosts : m.hosts = #[]
  closures : Closures m.heap
  stacked : ∃ σ, m.stack.size = σ.length ∧ Stacked m.heap m.frames σ ∧
    Tracked m.heap m.openUpvalues σ

/-- The innermost call waits for an item of its layout. -/
structure Ahead (m : Machine) (call : Frame) (outer : List Frame) (k : Closure) (f : Function)
    (c pre post : Layout) (x : Item) (τ ρ : Shape) : Prop where
  frames : m.frames = call :: outer
  active : Active m.heap call k f c
  layout : c = pre ++ (τ, x) :: post
  ip : call.ip = width pre.code
  base : call.base = ρ.length
  calls : Calls m.heap outer ρ
  valid : ValidClosure m.heap k
  size : m.stack.size = (τ ++ ρ).length
  tracked : Tracked m.heap m.openUpvalues (τ ++ ρ)

section Ahead

variable {m : Machine} {call : Frame} {outer : List Frame} {k : Closure} {f : Function}
  {c pre post : Layout} {x : Item} {τ ρ : Shape}

theorem Invariant.ahead (inv : Invariant m) (hf : m.frames = call :: outer) :
    ∃ k f c pre post x τ ρ, Ahead m call outer k f c pre post x τ ρ := by
  obtain ⟨σ, size, stacked, tracked⟩ := inv.stacked
  rw [hf] at stacked
  cases stacked with
  | active active at_ base calls =>
    obtain ⟨pre, τ, x, post, hc, ip, below⟩ := at_
    refine ⟨_, _, _, pre, post, x, τ, _, hf, active, hc, ip, base, calls,
      inv.closures _ _ active.closure, ?_, tracked.reshape fun slot hs => ?_⟩
    · rw [size, List.length_append, List.length_append, below.length_eq]
    · exact hs.below (List.rel_append below (Below.refl _))

namespace Ahead

theorem count (a : Ahead m call outer k f c pre post x τ ρ) :
    k.upvalues.size = f.upvalueCount := by
  obtain ⟨f', hf', count⟩ := a.valid.count
  obtain rfl := Option.some.inj (a.active.function.symm.trans (a.active.same ▸ hf'))
  exact count

theorem fine (a : Ahead m call outer k f c pre post x τ ρ) :
    Fine ⟨m.heap, f.chunk.constants, f.upvalueCount⟩ c.At call.ip τ x :=
  a.ip ▸ a.active.fits.fine pre τ x post a.layout

theorem code (a : Ahead m call outer k f c pre post x τ ρ) :
    f.chunk.code.toList = stream pre.code ++ (stream x.code ++ stream post.code) := by
  rw [a.active.fits.code, a.layout]
  simp

theorem read? (a : Ahead m call outer k f c pre post x τ ρ) {i : Instruction}
    {is : List Instruction} (hx : x.code = i :: is) : f.chunk.read? call.ip = some i := by
  have := Chunk.read?_of_code (c := f.chunk) (i := i) (stream pre.code)
    (stream is ++ stream post.code) (by rw [a.code, hx]; simp)
  rwa [Instruction.length_stream, ← a.ip] at this

theorem next? (a : Ahead m call outer k f c pre post x τ ρ) {i : Instruction}
    {is : List Instruction} (hx : x.code = i :: is) : m.next? = some (call, i) := by
  rw [Machine.next?, a.frames]
  simp [a.active.function, a.read? hx]

/-- Behind fetching. -/
theorem holds (a : Ahead m call outer k f c pre post x τ ρ) (inv : Invariant m) (ip : Nat) :
    Holds m.heap (fun r v => content m.stack m.heap r = some v) ({ call with ip } :: outer) (τ ++ ρ)
      { m with frames := { call with ip } :: outer } :=
  ⟨rfl, a.size, inv.hosts, .refl _, Nat.le_refl _, fun _ => inv.closures, fun _ => a.tracked,
    fun _ _ _ => id⟩

/-- A closure is made, given the values that captured variables should have. -/
theorem ends_closure {i : UInt8} {captures : List Capture} {W : Ref → Value → Prop}
    (a : Ahead m call outer k f c pre post (.closure i captures) τ ρ) (inv : Invariant m)
    (hW : ∀ r v, W r v → content m.stack m.heap r = some v) :
    Ends instruction m (fun _ m' => Arrives m.heap W m' ∧
      (m'.heap.size ≤ UInt32.size → ∃ r r' refs, m'.stack.back? = some (.object r') ∧
        m'.heap.closure? r' = some ⟨r, refs⟩ ∧
        List.Forall₂ (CapturedAs m'.heap call.base k.upvalues) captures refs.toList))
      (Stopped m.heap W) := by
  obtain ⟨-, r, g, self, pool, hg, count, captured, last⟩ := a.fine
  rw [Item.code, Instruction.width_cons, ← Nat.add_assoc] at last
  have made : (τ, Item.closure i captures) ∈ c := by
    rw [a.layout]
    simp
  have locals : ∀ cap ∈ captures, cap.isLocal = true →
      Allows (self :: (τ ++ ρ)) (call.base + cap.index.toNat) := fun cap hc hl => by
    have := captured cap hc
    rw [Captures, if_pos hl] at this
    unfold Allows
    rw [← List.cons_append, List.reverse_append, a.base,
      List.getElem?_append_right (by simp), List.length_reverse, Nat.add_sub_cancel_left]
    exact this
  have chained : ∀ cap ∈ captures, cap.isLocal = false → cap.index.toNat < k.upvalues.size :=
    fun cap hc hl => by
      have := captured cap hc
      rw [Captures, hl] at this
      exact a.count ▸ this
  refine .bind (.fetch a.frames a.active.function (a.read? rfl) ?_)
  have holds := (a.holds inv (call.ip + (Instruction.closure i).size)).weaken hW
  refine (ends_makeClosure holds a.active.function a.active.closure
    (fun _ => a.valid.upvalues) pool hg count (a.active.makes τ i captures r made pool) locals chained
    (stream pre.code ++ (Instruction.closure i).encode) (stream post.code)
    (by rw [a.code]; simp [Item.code]) ?_).imp (fun _ m' h => ?_) fun _ _ h => h
  · rw [List.length_append, Instruction.length_stream, Instruction.length_encode, ← a.ip]
  · exact ⟨.move (σ := self :: τ) a.active a.base a.calls h.1 last, fun hb => ⟨r, h.2 hb⟩⟩

end Ahead
end Ahead

theorem ends_instruction {m : Machine} {call : Frame} {outer : List Frame} (inv : Invariant m)
    (hb : m.heap.size ≤ UInt32.size) (hf : m.frames = call :: outer) :
    Ends instruction m (fun _ m' => Arrives m.heap m.Expects m') (Stopped m.heap m.Expects) := by
  obtain ⟨k, f, c, pre, post, x, τ, ρ, a⟩ := inv.ahead hf
  cases x with
  | plain i =>
    refine .bind (.fetch hf a.active.function (a.read? rfl) ?_)
    refine ends_execute a.active a.base a.calls (a.holds inv _) hb a.fine
      fun r v expects => ?_
    unfold Expects Assigns at expects
    rw [a.next? rfl] at expects
    exact expects
  | closure i captures =>
    refine (a.ends_closure inv fun r v expects => ?_).imp (fun _ _ => And.left) fun _ _ h => h
    unfold Expects Assigns at expects
    rw [a.next? rfl] at expects
    exact expects.elim (fun ⟨h, _⟩ => h.elim) And.right

theorem Arrives.invariant {h₀ : Heap} {W : Ref → Value → Prop} {m : Machine} (h : Arrives h₀ W m)
    (hb : m.heap.size ≤ UInt32.size) : Invariant m := by
  obtain ⟨σ, h, stacked⟩ := h
  exact ⟨h.hosts, h.closures hb, σ, h.size, stacked hb, h.tracked hb⟩

theorem Tracked.none_open {h : Heap} {opens : List Ref} (t : Tracked h opens []) :
    Tracked h [] [] := by
  have none (r : Ref) (slot : Nat) : h.upvalue? r ≠ some (.opened slot) := fun e => by
    have := (t.allowed r slot e).lt
    simp at this
  refine ⟨fun r => ⟨fun hm => ?_, fun ⟨slot, e⟩ => (none r slot e).elim⟩, .nil, t.allowed⟩
  cases hm

theorem heap_reset (m : Machine) : m.reset.heap = (closeFrom 0 m.stack m.heap m.openUpvalues).1 :=
  rfl

/-- A machine can be used again after a reset, and captured variables keep their values. -/
theorem Fallen.reset {h₀ : Heap} {W : Ref → Value → Prop} {m : Machine} (h : Fallen h₀ W m) :
    h₀.Kept m.reset.heap ∧ m.reset.heap.size = m.heap.size ∧ (m.heap.size ≤ UInt32.size →
      Invariant m.reset ∧ ∀ r v, W r v → content m.reset.stack m.reset.heap r = some v) := by
  obtain ⟨kept, size, closures⟩ :=
    closeFrom_kept 0 m.stack m.openUpvalues m.heap
  rw [heap_reset]
  refine ⟨h.kept.trans kept, size, fun hb => ?_⟩
  obtain ⟨σ, tracked⟩ := h.tracked hb
  obtain ⟨tracked, contents⟩ :=
    Tracked.close (σ := []) m.stack (by rwa [List.append_nil])
  refine ⟨⟨h.hosts, ?_, [], rfl, .idle, tracked.none_open⟩, fun r v w => ?_⟩
  · exact (h.closures hb).kept kept fun r k hk => .inl ((closures r).symm.trans hk)
  · exact contents (by simp) (h.contents hb w)

/-- What a step may tell. -/
def Progress.Proper : Progress → Prop
  | .running | .finished | .exited _ | .failed (.output _) => True
  | .failed (.runtime f _) => f ≠ .stackUnderflow
  | .failed (.malformed _) | .failed .notExecutable | .failed (.compile _) => False

/-- The script has not asked to end the program. -/
def Progress.Stays (p : Progress) : Prop := ∀ code, p ≠ .exited code

theorem proper_progress (m : Machine) : m.progress.Proper := by
  unfold progress
  split <;> trivial

/-- What is known behind a step from a machine. -/
structure Stepped (m : Machine) (p : Progress) (m' : Machine) : Prop where
  proper : p.Proper
  grown : m.heap.size ≤ m'.heap.size
  kept : m.heap.Kept m'.heap
  contents : m'.heap.size ≤ UInt32.size →
    ∀ r v, m.Expects r v → content m'.stack m'.heap r = some v
  invariant : m'.heap.size ≤ UInt32.size → p.Stays → Invariant m'

theorem Invariant.step {m : Machine} (inv : Invariant m) (hb : m.heap.size ≤ UInt32.size) :
    Stepped m m.step.1 m.step.2 := by
  cases hf : m.frames with
  | nil =>
    rw [step_idle hf]
    refine ⟨trivial, Nat.le_refl _, .refl _, fun _ r v expects => ?_, fun _ _ => inv⟩
    simpa [Expects, Assigns, next?, hf] using expects
  | cons call outer =>
    obtain ⟨m', arrives, e⟩ | ⟨s, m', ⟨benign, h⟩, e⟩ := step_cases hf (ends_instruction inv hb hf)
    · have ⟨σ, h, _⟩ := arrives
      rw [e]
      exact ⟨proper_progress m', h.grown, h.kept, h.contents, fun hb _ => arrives.invariant hb⟩
    · obtain ⟨kept, size, again⟩ := h.reset
      have reset {p : Progress} (hp : p.Proper) : Stepped m p m'.reset :=
        ⟨hp, Nat.le_trans h.grown (Nat.le_of_eq size.symm), kept, fun hb => (again (size ▸ hb)).2,
          fun hb _ => (again (size ▸ hb)).1⟩
      rw [e]
      cases s with
      | fault f =>
        refine reset fun e => ?_
        cases e
        exact benign
      | output => exact reset trivial
      | exit code =>
        exact ⟨trivial, h.grown, h.kept, h.contents, fun _ stays => absurd rfl (stays code)⟩
      | notExecutable | malformed => exact benign.elim

end Machine
end StackScript
