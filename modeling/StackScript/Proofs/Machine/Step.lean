import StackScript.Machine.Run
import StackScript.Proofs.Machine.Calls

/-!
# StackScript.Proofs.Machine.Step

What one instruction does to the active calls.

* `Active`: the function of a call has a layout. `Calls`: calls that wait for the result of another
  one. `Stacked`: all calls, given the shape of the stack.
* `Assigns`: the next instruction assigns to a captured variable.
* `ends_instruction`: an instruction leads to calls with a shape again, or is stopped without a
  fault of the bytecode. Captured variables keep their values otherwise.
-/

namespace StackScript
namespace Machine

open Bytecode
open Bytecode.Shape (temporaries Below)
open Instruction (width)

/-- A call has a closure of its function, and its function has a layout. -/
structure Active (h : Heap) (call : Frame) (k : Closure) (f : Function) (c : Layout) : Prop where
  closure : h.closure? call.closure = some k
  same : k.function = call.function
  function : h.function? call.function = some f
  fits : c.Fits h f
  makes : ∀ τ i captures r, (τ, Item.closure i captures) ∈ c →
    f.chunk.constants[i.toNat]? = some (.object r) → Sound h r

/-- Calls that wait for the result of the call above them. The slot of that result is not the lowest
one of their frame. -/
inductive Calls (h : Heap) : List Frame → Shape → Prop where
  | nil : Calls h [] []
  | cons {call : Frame} {outer : List Frame} {k : Closure} {f : Function} {c : Layout}
      {σ ρ : Shape} : Active h call k f c → c.At call.ip (false :: σ) → σ.Rooted →
      call.base = ρ.length → Calls h outer ρ → Calls h (call :: outer) (σ ++ ρ)

/-- The active calls share the stack. -/
inductive Stacked (h : Heap) : List Frame → Shape → Prop where
  | idle : Stacked h [] []
  | active {call : Frame} {outer : List Frame} {k : Closure} {f : Function} {c : Layout}
      {σ ρ : Shape} : Active h call k f c → c.At call.ip σ → call.base = ρ.length →
      Calls h outer ρ → Stacked h (call :: outer) (σ ++ ρ)

section Kept

variable {h h' : Heap}

theorem Active.kept {call : Frame} {k : Closure} {f : Function} {c : Layout}
    (a : Active h call k f c) (kept : h.Kept h') : Active h' call k f c :=
  ⟨kept.closure? a.closure, a.same, kept.function? a.function, a.fits.kept kept,
    fun τ i captures r hm hr => (a.makes τ i captures r hm hr).kept kept⟩

/-- Moving on in a function does not change the call otherwise. -/
theorem Active.move {call : Frame} {k : Closure} {f : Function} {c : Layout}
    (a : Active h call k f c) (ip : Nat) : Active h { call with ip } k f c :=
  ⟨a.closure, a.same, a.function, a.fits, a.makes⟩

theorem Calls.kept {fs : List Frame} {ρ : Shape} (calls : Calls h fs ρ) (kept : h.Kept h') :
    Calls h' fs ρ := by
  induction calls with
  | nil => exact .nil
  | cons active at_ rooted base _ ih => exact .cons (active.kept kept) at_ rooted base ih

/-- A closure of the heap can be called. -/
theorem Closures.active {r : Ref} {k : Closure} {f : Function} (cs : Closures h)
    (hk : h.closure? r = some k) (hf : h.function? k.function = some f) (ip base : Nat) :
    ∃ c, Active h ⟨r, k.function, ip, base⟩ k f c := by
  obtain ⟨sound, -, -⟩ := cs r k hk
  cases sound with
  | intro hf' fits makes =>
    obtain rfl := Option.some.inj (hf.symm.trans hf')
    exact ⟨_, hk, rfl, hf, fits, makes⟩

end Kept

/-- The innermost call and the instruction that it executes next. -/
def next? (m : Machine) : Option (Frame × Instruction) :=
  match m.frames with
  | [] => none
  | call :: _ => do
    let f ← m.heap.function? call.function
    let i ← f.chunk.read? call.ip
    return (call, i)

theorem step_idle {m : Machine} (hf : m.frames = []) : m.step = (.finished, m) := by
  rw [step, hf]
  rfl

theorem step_eq {m : Machine} {call : Frame} {outer : List Frame} (hf : m.frames = call :: outer) :
    m.step = match instruction m with
      | .ok _ m' => (m'.progress, m')
      | .error s m' => m'.stopWith s := by
  rw [step, hf]
  rfl

/-- The end of a step, given the ends of an instruction. -/
theorem step_cases {m : Machine} {call : Frame} {outer : List Frame} {Q : Machine → Prop}
    {E : Stop → Machine → Prop} (hf : m.frames = call :: outer)
    (h : Ends instruction m (fun _ => Q) E) :
    (∃ m', Q m' ∧ m.step = (m'.progress, m')) ∨ ∃ s m', E s m' ∧ m.step = m'.stopWith s := by
  unfold Ends at h
  rw [step, hf]
  simp only [List.isEmpty_cons, Bool.false_eq_true, if_false, EStateM.run]
  cases hx : instruction m with
  | ok _ m' =>
    rw [hx] at h
    exact .inl ⟨m', h, rfl⟩
  | error s m' =>
    rw [hx] at h
    exact .inr ⟨s, m', h, rfl⟩

/-- An instruction of a call assigns to a captured variable: through its slot, or through the
upvalue itself. -/
def Targets (h : Heap) (call : Frame) : Instruction → Ref → Prop
  | .setLocal i, r => h.upvalue? r = some (.opened (call.base + i.toNat))
  | .setUpvalue i, r => ∃ k, h.closure? call.closure = some k ∧ k.upvalues[i.toNat]? = some r
  | _, _ => False

/-- The next instruction assigns to a captured variable. -/
def Assigns (m : Machine) (r : Ref) : Prop :=
  match m.next? with
  | some (call, i) => Targets m.heap call i r
  | none => False

/-- The values that captured variables have behind the next instruction. -/
def Expects (m : Machine) (r : Ref) (v : Value) : Prop :=
  (m.Assigns r ∧ m.stack.back? = some v) ∨ (¬m.Assigns r ∧ content m.stack m.heap r = some v)

/-- Behind an instruction: the calls share the stack again. -/
def Arrives (h₀ : Heap) (W : Ref → Value → Prop) (m : Machine) : Prop :=
  ∃ σ, Holds h₀ W m.frames σ m ∧ (m.heap.size ≤ UInt32.size → Stacked m.heap m.frames σ)

section Instructions

variable {h₀ : Heap} {W W' : Ref → Value → Prop} {call : Frame} {outer : List Frame} {k : Closure}
  {f : Function} {c : Layout} {σ ρ rest : Shape} {m : Machine}

theorem Arrives.move {ip : Nat} (active : Active h₀ call k f c) (base : call.base = ρ.length)
    (calls : Calls h₀ outer ρ) (h : Holds h₀ W ({ call with ip } :: outer) (σ ++ ρ) m)
    (at_ : c.At ip σ) : Arrives h₀ W m := by
  refine ⟨σ ++ ρ, h.frames ▸ h, fun _ => ?_⟩
  rw [h.frames]
  exact .active ((active.move ip).kept h.kept) at_ base (calls.kept h.kept)

/-- Instructions that go on with the next one and assign to no captured variable. -/
def Straight : Instruction → Prop
  | .setLocal _ | .setUpvalue _ | .jump _ | .jumpIfFalse _ | .loop _ | .call _ | .closure _
  | .capture _ | .ret => False
  | _ => True

theorem leads_straight {i : Instruction} {top : Shape} {ip : Nat} (active : Active h₀ call k f c)
    (base : call.base = ρ.length)
    (h : Holds h₀ W ({ call with ip } :: outer) (top ++ rest ++ ρ) m)
    (hb : m.heap.size ≤ UInt32.size) (takes : Takes i top)
    (admits : Admits ⟨h₀, f.chunk.constants, f.upvalueCount⟩ rest i) (straight : Straight i) :
    Leads h₀ W ({ call with ip } :: outer) (execute i) m (temporaries (effect i).2 ++ rest ++ ρ) := by
  have hf := h.kept.function? active.function
  have hk := h.kept.closure? active.closure
  have names {i : UInt8} (hi : ∃ r name, f.chunk.constants[i.toNat]? = some (.object r) ∧
      h₀.string? r = some name) : Names m f i := by
    obtain ⟨r, name, hr, hn⟩ := hi
    exact ⟨r, name, hr, h.kept.string? hn⟩
  rw [List.append_assoc] at h ⊢
  cases i with
  | setLocal | setUpvalue | jump | jumpIfFalse | loop | call | closure | capture | ret =>
    exact straight.elim
  | closeUpvalue =>
    obtain ⟨b, rfl⟩ := List.length_eq_one_iff.1 takes
    exact leads_closeTop h
  | constant j => obtain rfl := takes; exact leads_constant h hf admits
  | pushNil | pushTrue | pushFalse => obtain rfl := takes; exact leads_push h _
  | pop => obtain rfl := takes; exact leads_pop h fun _ _ _ h => .pure h
  | getLocal j =>
    obtain rfl := takes
    have admits : j.toNat < rest.length := admits.2
    have inside : call.base + j.toNat < (rest ++ ρ).length := by
      rw [List.length_append]
      omega
    exact leads_readLocal h inside
  | getGlobal => obtain rfl := takes; exact leads_readGlobal h hf (names admits)
  | defineGlobal => obtain rfl := takes; exact leads_defineGlobal h hf (names admits)
  | setGlobal => obtain rfl := takes; exact leads_assignGlobal h hf (names admits)
  | getUpvalue =>
    obtain rfl := takes
    exact leads_readUpvalue h hb hk (active.same ▸ hf) admits
  | getIndex => obtain rfl := takes; exact leads_readElement h
  | setIndex => obtain rfl := takes; exact leads_assignElement h
  | equal => obtain rfl := takes; exact leads_compareEqual h
  | greater => obtain rfl := takes; exact leads_comparison h fun a b => decide (b < a)
  | less => obtain rfl := takes; exact leads_comparison h fun a b => decide (a < b)
  | add => obtain rfl := takes; exact leads_addOperands h
  | subtract | multiply | divide => obtain rfl := takes; exact leads_numeric h _
  | negation => obtain rfl := takes; exact leads_invertTruth h
  | negate => obtain rfl := takes; exact leads_negateNumber h
  | print => obtain rfl := takes; exact leads_printTop h
  | array => obtain rfl := takes; exact leads_makeArray h

theorem Holds.weaken {fs : List Frame} (h : Holds h₀ W fs σ m) (hW : ∀ r v, W' r v → W r v) :
    Holds h₀ W' fs σ m :=
  ⟨h.frames, h.size, h.hosts, h.kept, h.grown, h.closures, h.tracked,
    fun hb _ _ w => h.contents hb (hW _ _ w)⟩

theorem Holds.move {fs fs' : List Frame} (h : Holds h₀ W fs σ m) :
    Holds h₀ W fs' σ { m with frames := fs' } :=
  ⟨rfl, h.size, h.hosts, h.kept, h.grown, h.closures, h.tracked, h.contents⟩

/-- An instruction without captures leads on, or is stopped. -/
theorem ends_execute {i : Instruction} {ip : Nat} (active : Active h₀ call k f c)
    (base : call.base = ρ.length) (calls : Calls h₀ outer ρ)
    (h : Holds h₀ W ({ call with ip := ip + i.size } :: outer) (σ ++ ρ) m)
    (hb : m.heap.size ≤ UInt32.size)
    (fine : Fine ⟨h₀, f.chunk.constants, f.upvalueCount⟩ c.At ip σ (.plain i))
    (hW : ∀ r v, W' r v → (Targets m.heap call i r ∧ m.stack.back? = some v) ∨
      (¬Targets m.heap call i r ∧ W r v)) :
    Ends (execute i) m (fun _ m' => Arrives h₀ W' m') (Stopped h₀ W') := by
  obtain ⟨top, rest, rfl, rooted, takes, admits, flows⟩ := fine
  have plain (none : ∀ r, ¬Targets m.heap call i r) :
      Holds h₀ W' ({ call with ip := ip + i.size } :: outer) (top ++ rest ++ ρ) m :=
    h.weaken fun r v w => (hW r v w).elim (fun ⟨t, _⟩ => (none r t).elim) And.right
  have hf := h.kept.function? active.function
  have hk := h.kept.closure? active.closure
  have straight (none : ∀ r, ¬Targets m.heap call i r) (hi : Straight i)
      (flows : c.At (ip + i.size) (temporaries (effect i).2 ++ rest)) :
      Ends (execute i) m (fun _ m' => Arrives h₀ W' m') (Stopped h₀ W') :=
    (leads_straight active base (plain none) hb takes admits hi).imp
      (fun _ _ h' => .move active base calls h' flows) fun _ _ h => h
  cases i with
  | setLocal j =>
    obtain rfl := takes
    have admits : j.toNat < rest.length := admits.2
    have inside : call.base + j.toNat < (rest ++ ρ).length := by
      rw [List.length_append]
      omega
    exact (leads_assignLocal h inside fun _ => hW).imp
      (fun _ _ h' => .move active base calls h' flows) fun _ _ h => h
  | setUpvalue j =>
    obtain rfl := takes
    refine (leads_assignUpvalue h hb hk (active.same ▸ hf) admits fun r v w => ?_).imp
      (fun _ _ h' => .move active base calls h' flows) fun _ _ h => h
    obtain ⟨⟨k', hk', hr⟩, hv⟩ | ⟨none, old⟩ := hW r v w
    · obtain rfl := Option.some.inj (hk.symm.trans hk')
      exact .inl ⟨hr, hv⟩
    · exact .inr ⟨fun hr => none ⟨k, hk, hr⟩, old⟩
  | jump d =>
    obtain rfl := takes
    have h := plain fun _ => id
    exact .bind (.frame h.frames (.setIp h.frames (.move active base calls h.move flows)))
  | jumpIfFalse d =>
    obtain rfl := takes
    have h := plain fun _ => id
    refine .bind (.peek (Holds.room h) fun v _ => ?_)
    split
    · exact .bind (.frame h.frames (.setIp h.frames (.move active base calls h.move flows.2)))
    · exact .move active base calls h flows.1
  | loop d =>
    obtain rfl := takes
    have h := plain fun _ => id
    refine .bind (.frame h.frames ?_)
    rw [if_pos flows.1]
    exact .setIp h.frames (.move active base calls h.move flows.2)
  | call n =>
    obtain rfl := takes
    have h := plain fun _ => id
    rw [List.append_assoc] at h
    refine (ends_startCall h hb).imp (fun _ m' h' => ?_) fun _ _ h => h
    obtain h' | ⟨r, k', f', hk', hf', same, h'⟩ := h'
    · exact .move (σ := false :: rest) active base calls h' flows
    · obtain ⟨c', active'⟩ := (h.closures hb).active hk' hf' 0 (rest ++ ρ).length
      refine ⟨_, h'.frames ▸ h', fun _ => ?_⟩
      rw [h'.frames, same]
      exact .active active' active'.fits.start rfl
        (.cons ((active.move _).kept h.kept) flows rooted base (calls.kept h.kept))
  | closure | capture => exact admits.elim
  | ret =>
    obtain rfl := takes
    have h := plain fun _ => id
    refine (ends_endCall h base).imp (fun _ m' h' => ?_) fun _ _ h => h
    obtain ⟨rfl, h'⟩ | ⟨more, h'⟩ := h'
    · cases calls
      refine ⟨[], h'.frames ▸ h', fun _ => ?_⟩
      rw [h'.frames]
      exact .idle
    · cases calls with
      | nil => exact absurd rfl more
      | cons active' at_ _ base' calls' => exact .move active' base' calls' h' at_
  | _ => exact straight (fun _ => id) trivial flows

end Instructions
end Machine
end StackScript
