import StackScript.Proofs.Machine.Reachable

/-!
# StackScript.Proofs.Machine.Safety

Compiled code passes all checks of the machine.

* `Stands`: a call waits at an instruction of its function.
* `Provided`: the operand of an instruction is there, and of the kind that the instruction needs.
* `Reachable.step_safe`: both hold in every reachable machine, and no step reports bad bytecode.
-/

namespace StackScript
namespace Machine

open Bytecode
open Instruction (width stream)

/-- A call waits at an instruction of its function, with code before and behind it. -/
structure Stands (h : Heap) (call : Frame) (f : Function) (before : List Instruction)
    (i : Instruction) (behind : List Instruction) : Prop where
  function : h.function? call.function = some f
  code : f.chunk.code.toList = stream (before ++ i :: behind)
  ip : call.ip = width before
  proper : ∀ c, i ≠ .capture c

/-- The closure of a call has an upvalue, and the upvalue has a value. -/
def HasUpvalue (m : Machine) (call : Frame) (i : UInt8) : Prop :=
  ∃ k r v, m.heap.closure? call.closure = some k ∧ k.upvalues[i.toNat]? = some r ∧
    content m.stack m.heap r = some v

/-- The operand of an instruction. A closure finds its captures behind it; the slot that it is about
to fill may be one of them. -/
def Provided (m : Machine) (call : Frame) (f : Function) (behind : List Instruction) :
    Instruction → Prop
  | .constant i => i.toNat < f.chunk.constants.size
  | .getLocal i | .setLocal i => call.base + i.toNat < m.stack.size
  | .getGlobal i | .defineGlobal i | .setGlobal i =>
    ∃ r name, f.chunk.constants[i.toNat]? = some (.object r) ∧ m.heap.string? r = some name
  | .getUpvalue i | .setUpvalue i => HasUpvalue m call i
  | .loop d => d.toNat ≤ call.ip + 3
  | .closure i =>
    ∃ r g, ∃ captures : List Capture, f.chunk.constants[i.toNat]? = some (.object r) ∧
      m.heap.function? r = some g ∧ captures.length = g.upvalueCount ∧
      captures.map .capture <+: behind ∧
      ∀ c ∈ captures, if c.isLocal then call.base + c.index.toNat ≤ m.stack.size
        else HasUpvalue m call c.index
  | .capture _ => False
  | _ => True

section Calls

variable {h : Heap} {call : Frame} {k : Closure} {f : Function} {c pre post : Layout} {σ τ : Shape}

theorem Active.stands {x : Item} {i : Instruction} {is : List Instruction}
    (active : Active h call k f c) (hc : c = pre ++ (τ, x) :: post) (ip : call.ip = width pre.code)
    (hx : x.code = i :: is) : Stands h call f pre.code i (is ++ post.code) := by
  refine ⟨active.function, ?_, ip, ?_⟩
  · rw [active.fits.code, hc]
    simp [hx]
  · rintro cap rfl
    cases x with
    | plain i =>
      cases hx
      obtain ⟨_, _, _, _, _, admits, _⟩ := active.fits.fine pre τ _ post hc
      exact admits
    | closure => cases hx

theorem Active.standsAt (active : Active h call k f c) (at_ : c.At call.ip σ) :
    ∃ f before i behind, Stands h call f before i behind := by
  obtain ⟨pre, τ, x, post, hc, ip, -⟩ := at_
  cases x with
  | plain i => exact ⟨_, _, _, _, active.stands hc ip rfl⟩
  | closure i captures => exact ⟨_, _, _, _, active.stands hc ip rfl⟩

theorem Calls.stand {fs : List Frame} (calls : Calls h fs σ) :
    ∀ call ∈ fs, ∃ f before i behind, Stands h call f before i behind := by
  induction calls with
  | nil => exact fun _ hm => by cases hm
  | cons active at_ _ _ _ ih =>
    intro call hm
    obtain rfl | hm := List.mem_cons.1 hm
    · exact active.standsAt at_
    · exact ih call hm

theorem Stacked.stand {fs : List Frame} (stacked : Stacked h fs σ) :
    ∀ call ∈ fs, ∃ f before i behind, Stands h call f before i behind := by
  cases stacked with
  | idle => exact fun _ hm => by cases hm
  | active active at_ _ calls =>
    intro call hm
    obtain rfl | hm := List.mem_cons.1 hm
    · exact active.standsAt at_
    · exact calls.stand call hm

end Calls

theorem Tracked.content {h : Heap} {opens : List Ref} {σ : Shape} {stack : Array Value} {r : Ref}
    {u : Upvalue} (t : Tracked h opens σ) (size : stack.size = σ.length)
    (hu : h.upvalue? r = some u) : ∃ v, content stack h r = some v := by
  rw [Machine.content, hu]
  cases u with
  | closed v => exact ⟨v, rfl⟩
  | opened slot =>
    have inside : slot < stack.size := size ▸ (t.allowed r slot hu).lt
    exact ⟨_, Array.getElem?_eq_getElem inside⟩

namespace Ahead

variable {m : Machine} {call : Frame} {outer : List Frame} {k : Closure} {f : Function}
  {c pre post : Layout} {x : Item} {τ ρ : Shape}

theorem hasUpvalue (a : Ahead m call outer k f c pre post x τ ρ) {i : UInt8}
    (hi : i.toNat < f.upvalueCount) : HasUpvalue m call i := by
  have inside : i.toNat < k.upvalues.size := a.count ▸ hi
  obtain ⟨u, hu⟩ := a.valid.upvalues _ (Array.getElem_mem inside)
  obtain ⟨v, hv⟩ := a.tracked.content a.size hu
  exact ⟨k, _, v, a.active.closure, Array.getElem?_eq_getElem inside, hv⟩

theorem provided (a : Ahead m call outer k f c pre post x τ ρ) {i : Instruction}
    {is : List Instruction} (hx : x.code = i :: is) :
    Provided m call f (is ++ post.code) i ∧ call.base + (effect i).1 ≤ m.stack.size := by
  have fine := a.fine
  have size := a.size
  rw [List.length_append, ← a.base] at size
  cases x with
  | plain i =>
    cases hx
    obtain ⟨top, rest, rfl, -, takes, admits, flows⟩ := fine
    rw [List.length_append] at size
    have taken : top.length = (effect i).1 := by
      unfold Takes at takes
      split at takes
      · exact takes
      · rw [takes, Shape.length_temporaries]
    refine ⟨?_, by omega⟩
    cases i with
    | constant | getGlobal | defineGlobal | setGlobal => exact admits
    | getLocal j | setLocal j =>
      have admits : j.toNat < rest.length := admits.2
      show call.base + j.toNat < m.stack.size
      omega
    | getUpvalue | setUpvalue => exact a.hasUpvalue admits
    | loop => exact flows.1
    | closure | capture => exact admits.elim
    | _ => trivial
  | closure i captures =>
    cases hx
    obtain ⟨-, r, g, self, pool, hg, count, captured, -⟩ := fine
    refine ⟨⟨r, g, captures, pool, hg, count, List.prefix_append _ _, fun cap hc => ?_⟩, ?_⟩
    · have inside := captured cap hc
      unfold Captures at inside
      split
      next hl =>
        rw [if_pos hl] at inside
        obtain ⟨lt, -⟩ := List.getElem?_eq_some_iff.1 inside
        rw [List.length_reverse, List.length_cons] at lt
        omega
      next hl =>
        rw [if_neg hl] at inside
        exact a.hasUpvalue inside
    · simp only [effect]
      omega

end Ahead

/-- In every machine that only runs compiled scripts, all calls wait at instructions of their
functions, the next instruction finds its operands and the values that it takes from the stack, and
the next step tells nothing else than that the script goes on, ends or fails by itself. -/
theorem Reachable.step_safe {m : Machine} (h : Reachable m) (hb : m.heap.size ≤ UInt32.size) :
    m.step.1.Proper ∧
    (∀ call ∈ m.frames, ∃ f before i behind, Stands m.heap call f before i behind) ∧
    ∀ call outer, m.frames = call :: outer → ∃ f before i behind,
      Stands m.heap call f before i behind ∧ Provided m call f behind i ∧
      call.base + (effect i).1 ≤ m.stack.size := by
  have inv := h.invariant hb
  obtain ⟨σ, -, stacked, -⟩ := inv.stacked
  refine ⟨(inv.step hb).proper, stacked.stand, fun call outer hf => ?_⟩
  obtain ⟨k, f, c, pre, post, x, τ, ρ, a⟩ := inv.ahead hf
  cases x with
  | plain i =>
    obtain ⟨provided, taken⟩ := a.provided rfl
    exact ⟨f, _, _, _, a.active.stands a.layout a.ip rfl, provided, taken⟩
  | closure i captures =>
    obtain ⟨provided, taken⟩ := a.provided rfl
    exact ⟨f, _, _, _, a.active.stands a.layout a.ip rfl, provided, taken⟩

theorem reachable_in_function : Reachable (((new .unlimited .still).load
    "{ var x; fun f() { x = nil; } f(); }").2.run 5).2 := by
  have runs : (((new .unlimited .still).load "{ var x; fun f() { x = nil; } f(); }").2.run 5).1 =
      .running := by
    decide +kernel
  refine .run 5 (.load _ (.new _ _) (by decide +kernel)) fun code e => ?_
  rw [runs] at e
  cases e

/-- A machine in a function that is about to assign to a variable of the script. -/
theorem step_safe_in_function :
    let m := (((new .unlimited .still).load "{ var x; fun f() { x = nil; } f(); }").2.run 5).2
    Reachable m ∧ m.heap.size ≤ UInt32.size ∧ m.step.1.Proper ∧
    (∀ call ∈ m.frames, ∃ f before i behind, Stands m.heap call f before i behind) ∧
    ∀ call outer, m.frames = call :: outer → ∃ f before i behind,
      Stands m.heap call f before i behind ∧ Provided m call f behind i ∧
      call.base + (effect i).1 ≤ m.stack.size := by
  have size : (((new .unlimited .still).load "{ var x; fun f() { x = nil; } f(); }").2.run
      5).2.heap.size = 26 := by
    decide +kernel
  have small : (((new .unlimited .still).load "{ var x; fun f() { x = nil; } f(); }").2.run
      5).2.heap.size ≤ UInt32.size := by
    rw [size]
    decide
  exact ⟨reachable_in_function, small, reachable_in_function.step_safe small⟩

end Machine
end StackScript
