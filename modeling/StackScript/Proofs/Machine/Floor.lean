import StackScript.Proofs.Bytecode.Verify
import StackScript.Proofs.Machine.Captured

/-!
# StackScript.Proofs.Machine.Floor

An instruction leaves alone what is below its frame, and the callee in the lowest slot of the frame.

* `Ground`: the calls around an instruction and the slots below it. `Ground.Over`: in the middle of
  an instruction, with some slots above the ground. `Ground.Rests`: a computation that takes slots
  above the ground only.
* `SetsOpen`: the next instruction assigns to a slot through an upvalue.
* `Moves`: what a step does to the calls and to the slots below. `Ahead.moves`: every step that goes
  on does one of these.
-/

namespace StackScript
namespace Machine

open Bytecode
open Bytecode.Shape (temporaries)

/-- The innermost call but for its instruction pointer, the calls around it, and the slots below
`floor`. -/
structure Ground where
  call : Frame
  outer : List Frame
  stack : Array Value
  floor : Nat

namespace Ground

/-- The stack has some slots above the ground, and the slots below are as they were. -/
structure Over (g : Ground) (count : Nat) (m : Machine) : Prop where
  frames : ∃ ip, m.frames = { g.call with ip } :: g.outer
  room : g.floor + count ≤ m.stack.size
  below : ∀ slot < g.floor, m.stack[slot]? = g.stack[slot]?

/-- A computation that finds some slots above the ground and leaves some there, unless it is
stopped. -/
def Rests {α : Type} (g : Ground) (x : Exec α) (before behind : Nat) : Prop :=
  ∀ m, g.Over before m → Ends x m (fun _ => g.Over behind) fun _ _ => True

variable {g : Ground} {α β : Type} {x : Exec α} {k l n : Nat} {m : Machine}

namespace Rests

theorem bind {f : α → Exec β} (hx : g.Rests x k l) (hf : ∀ a, g.Rests (f a) l n) :
    g.Rests (x >>= f) k n :=
  fun m h => .bind ((hx m h).imp (fun a m' => hf a m') fun _ _ _ => trivial)

/-- Computations that change neither the stack nor the calls. -/
theorem ofKeeps (h : Keeps (g.Over k) x) : g.Rests x k k :=
  fun m start => (h m start).imp (fun _ _ => id) fun _ _ _ => trivial

theorem pure (a : α) : g.Rests (Pure.pure a) k k := .ofKeeps (.pure a)

theorem throw (s : Stop) : g.Rests (throw s : Exec α) k l := fun _ _ => trivial

theorem fail (f : Fault) : g.Rests (fail f : Exec α) k l := throw _

theorem malformed (cause : Malformed) : g.Rests (malformed cause : Exec α) k l := throw _

theorem push (v : Value) : g.Rests (push v) k (k + 1) := by
  intro m h
  refine .push ⟨h.frames, ?_, fun slot hs => ?_⟩ trivial
  · have := h.room
    rw [Array.size_push]
    omega
  · have inside : slot < m.stack.size := Nat.lt_of_lt_of_le hs (Nat.le_trans (Nat.le_add_right ..) h.room)
    rw [Array.getElem?_push_lt inside, ← h.below slot hs, Array.getElem?_eq_getElem inside]

/-- Slots are dropped down to a size above the ground. -/
theorem shrinks {size : Nat} (h : g.Over k m) (hl : l ≤ k) (hs : g.floor + l ≤ size) :
    g.Over l { m with stack := m.stack.shrink size } := by
  have room := h.room
  refine ⟨h.frames, ?_, fun slot below => ?_⟩
  · rw [Array.size_shrink]
    omega
  · rw [getElem?_shrink (by omega), h.below slot below]

theorem drop (n : Nat) : g.Rests (drop n) (k + n) k := by
  intro m h
  have room := h.room
  exact shrinks h (Nat.le_add_right ..) (by omega)

theorem pop : g.Rests pop (k + 1) k := by
  intro m h
  have room := h.room
  refine .pop (by omega) fun v _ => ⟨h.frames, ?_, fun slot below => ?_⟩
  · rw [Array.size_pop]
    omega
  · rw [Array.getElem?_pop, if_pos (by omega), h.below slot below]

theorem setSlot {i : Nat} (v : Value) (hi : g.floor ≤ i) : g.Rests (setSlot i v) k k := by
  intro m h
  refine .bind (.get ?_)
  split
  · refine .modify ⟨h.frames, by rw [Array.size_setIfInBounds]; exact h.room, fun slot below => ?_⟩
    rw [Array.getElem?_setIfInBounds_ne (by omega), h.below slot below]
  · exact trivial

theorem setIp (ip : Nat) : g.Rests (setIp ip) k k := by
  intro m h
  obtain ⟨ip', e⟩ := h.frames
  exact .setIp e ⟨⟨ip, rfl⟩, h.room, h.below⟩

theorem frame {f : Frame → Exec β} (hf : ∀ ip, g.Rests (f { g.call with ip }) k l) :
    g.Rests (frame >>= f) k l := by
  intro m h
  obtain ⟨ip, e⟩ := h.frames
  exact .bind (.frame e (hf ip m h))

theorem allocate (o : Object) : g.Rests (allocate o) k k :=
  .ofKeeps (.modifyGet fun _ h => ⟨h.frames, h.room, h.below⟩)

theorem popNumbers : g.Rests popNumbers (k + 2) k := by
  refine .bind (.ofKeeps (.peek 1)) fun a => .bind (.ofKeeps (.peek 0)) fun b => ?_
  split
  · exact .bind (.drop 2) fun _ => .pure _
  · exact .fail _

theorem sum (a b : Value) : g.Rests (sum a b) k k := by
  unfold Machine.sum
  split
  · exact .pure _
  · refine .bind (.ofKeeps .get) fun m => ?_
    dsimp only
    split
    · exact .bind (.ofKeeps (.modifyGet fun _ h => ⟨h.frames, h.room, h.below⟩)) fun _ => .pure _
    · exact .fail _

theorem captures (base n : Nat) : ∀ refs : Array Ref, g.Rests (captures base n refs) k k := by
  induction n with
  | zero => exact fun _ => .pure _
  | succ n ih =>
    refine fun refs => .bind (.ofKeeps .frame) fun _ => .bind (.ofKeeps .chunk) fun _ => ?_
    split
    next c _ =>
      have rest (ip : Nat) (r : Ref) :
          g.Rests (do Machine.setIp ip; Machine.captures base n (refs.push r)) k k :=
        .bind (.setIp _) fun _ => ih _
      dsimp only
      split
      · refine .bind (.ofKeeps (.modifyGet fun m h => ?_)) fun r => rest _ r
        show g.Over k (m.captureSlot _).1
        unfold captureSlot
        split
        · exact h
        · exact ⟨h.frames, h.room, h.below⟩
      · exact .bind (.ofKeeps (.upvalueRef _)) fun r => rest _ r
    · exact .malformed _

theorem makeClosure (i : UInt8) : g.Rests (makeClosure i) k (k + 1) := by
  refine .bind (.ofKeeps (.constant i)) fun v => ?_
  split
  · refine .bind (.ofKeeps .get) fun m => ?_
    split
    · exact .bind (.ofKeeps .frame) fun _ => .bind (.captures _ _ _) fun _ =>
        .bind (.allocate _) fun _ => .push _
    · exact .malformed _
  · exact .malformed _

theorem makeArray (count : UInt8) : g.Rests (makeArray count) (k + count.toNat) (k + 1) := by
  intro m h
  have room := h.room
  refine .bind (.get ?_)
  dsimp only
  rw [if_pos (by omega)]
  have rest : g.Rests (do Machine.push (.object (← Machine.allocate
      (.array (m.stack.extract (m.stack.size - count.toNat) m.stack.size))))) k (k + 1) :=
    .bind (.allocate _) fun _ => .push _
  exact .bind (.truncate (rest _ (shrinks h (Nat.le_add_right ..) (by omega))))

theorem runProcedure (p : Procedure) (arguments : List Value) :
    g.Rests (runProcedure p arguments) k k := by
  unfold Machine.runProcedure
  cases p with
  | builtin b =>
    refine .bind (.ofKeeps .get) fun m => ?_
    split
    · exact .bind (.ofKeeps (.modify fun _ h => ⟨h.frames, h.room, h.below⟩)) fun _ => .pure _
    · exact .fail _
    · exact .throw _
  | host index =>
    refine .bind (.ofKeeps .get) fun m => ?_
    split
    · exact .fail _
    · refine .bind (.ofKeeps (.modifyGet fun _ h => ⟨h.frames, h.room, h.below⟩)) fun result => ?_
      split
      · exact .pure _
      · exact .fail _

/-- A native finds itself below its arguments. -/
theorem callNative (r : Ref) (count : Nat) : g.Rests (callNative r count) (k + (count + 1)) (k + 1) := by
  intro m h
  have room := h.room
  refine .bind (.get ?_)
  split
  · exact trivial
  · split
    · exact trivial
    · refine .bind (.get (.bind ((runProcedure _ _ m h).imp (fun v m' h' => ?_) fun _ _ _ => trivial)))
      exact .bind (.truncate (push v _ (shrinks h' (Nat.le_add_right ..) (by omega))))

theorem assignGlobal (i : UInt8) : g.Rests (assignGlobal i) k k := by
  refine .bind (.ofKeeps (.nameConstant i)) fun (key, name) => .bind (.ofKeeps (.peek 0)) fun v =>
    .bind (.ofKeeps (.modifyGet fun _ h => ⟨h.frames, h.room, h.below⟩)) fun isNew => ?_
  split
  · exact .bind (.ofKeeps (.modify fun _ h => ⟨h.frames, h.room, h.below⟩)) fun _ => .fail _
  · exact .pure _

theorem printTop : g.Rests printTop (k + 1) k := by
  refine .bind .pop fun v =>
    .bind (.ofKeeps (.modifyGet fun _ h => ⟨h.frames, h.room, h.below⟩)) fun fits => ?_
  split
  · exact .pure _
  · exact .throw _

theorem jumpAhead (d : UInt16) : g.Rests (jumpAhead d) k k :=
  .bind (.ofKeeps .frame) fun _ => .setIp _

/-- Instructions that neither call nor return, nor assign through an upvalue. -/
theorem execute {i : Instruction} (floor : g.floor = g.call.base + 1)
    (root : ∀ j, i = .setLocal j → j ≠ 0) (upvalue : ∀ j, i ≠ .setUpvalue j)
    (call : ∀ n, i ≠ .call n) (ret : i ≠ .ret) : g.Rests (execute i) (effect i).1 (effect i).2 := by
  cases i with
  | setUpvalue j => exact absurd rfl (upvalue j)
  | call n => exact absurd rfl (call n)
  | ret => exact absurd rfl ret
  | constant i => exact .bind (.ofKeeps (.constant i)) fun v => .push v
  | pushNil | pushTrue | pushFalse => exact .push _
  | pop => exact .bind .pop fun _ => .pure _
  | getLocal i =>
    exact .bind (.ofKeeps .frame) fun _ => .bind (.ofKeeps (.slot _)) fun _ => .push _
  | setLocal i =>
    refine .frame fun ip => .bind (.ofKeeps (.peek 0)) fun v => .setSlot v ?_
    have : i.toNat ≠ 0 := fun e => root i rfl (UInt8.toNat_inj.1 e)
    rw [floor]
    dsimp only
    omega
  | getGlobal i =>
    refine .bind (.ofKeeps (.nameConstant i)) fun (key, name) => .bind (.ofKeeps .get) fun m => ?_
    split
    · exact .push _
    · exact .fail _
  | defineGlobal i =>
    exact .bind (.ofKeeps (.nameConstant i)) fun (key, name) => .bind (.ofKeeps (.peek 0)) fun v =>
      .bind (.ofKeeps (.modify fun _ h => ⟨h.frames, h.room, h.below⟩)) fun _ =>
        .bind .pop fun _ => .pure _
  | setGlobal i => exact .assignGlobal i
  | getUpvalue i =>
    refine .bind (.ofKeeps (.upvalueRef i)) fun r => .bind (.ofKeeps .get) fun m => ?_
    split
    · exact .bind (.ofKeeps (.slot _)) fun _ => .push _
    · exact .push _
    · exact .malformed _
  | getIndex =>
    exact .bind .pop fun index => .bind .pop fun target =>
      .bind (.ofKeeps (.element target index)) fun p => .bind (.ofKeeps .get) fun m => .push _
  | setIndex =>
    exact .bind .pop fun v => .bind .pop fun index => .bind .pop fun target =>
      .bind (.ofKeeps (.element target index)) fun p =>
        .bind (.ofKeeps (.modify fun _ h => ⟨h.frames, h.room, h.below⟩)) fun _ => .push v
  | equal => exact .bind .pop fun _ => .bind .pop fun _ => .push _
  | greater | less | subtract | multiply | divide => exact .bind .popNumbers fun _ => .push _
  | add =>
    exact .bind (.ofKeeps (.peek 1)) fun a => .bind (.ofKeeps (.peek 0)) fun b =>
      .bind (.sum a b) fun v => .bind (.drop 2) fun _ => .push v
  | negation => exact .bind .pop fun _ => .push _
  | negate =>
    refine .bind (.ofKeeps (.peek 0)) fun v => ?_
    split
    · exact .bind .pop fun _ => .push _
    · exact .fail _
  | print => exact .printTop
  | jump d => exact .jumpAhead d
  | jumpIfFalse d =>
    refine .bind (.ofKeeps (.peek 0)) fun v => ?_
    split
    · exact .jumpAhead d
    · exact .pure _
  | loop d =>
    refine .bind (.ofKeeps .frame) fun call => ?_
    dsimp only
    split
    · exact .setIp _
    · exact .malformed _
  | closure i => exact .makeClosure i
  | capture => exact .throw _
  | closeUpvalue =>
    exact .bind (.ofKeeps (.modify fun _ h => ⟨h.frames, h.room, h.below⟩)) fun _ =>
      .bind .pop fun _ => .pure _
  | array n =>
    have h := Rests.makeArray (g := g) (k := 0) n
    rwa [Nat.zero_add, Nat.zero_add] at h

end Rests
end Ground

/-- The next instruction assigns to a slot through an upvalue that is open there. -/
def SetsOpen (m : Machine) (slot : Nat) : Prop :=
  ∃ call i k r, m.next? = some (call, .setUpvalue i) ∧ m.heap.closure? call.closure = some k ∧
    k.upvalues[i.toNat]? = some r ∧ m.heap.upvalue? r = some (.opened slot)

/-- What a step that goes on does to the calls, of which `call` is the innermost one, and to the
slots of the calls around. -/
inductive Moves (m : Machine) (call : Frame) (outer : List Frame) (m' : Machine) : Prop where
  | onward (ip : Nat) : m'.frames = { call with ip } :: outer →
      (∀ slot ≤ call.base, ¬m.SetsOpen slot → m'.stack[slot]? = m.stack[slot]?) →
      Moves m call outer m'
  | called (n : UInt8) (r function : Ref) : m.next? = some (call, .call n) →
      m.stack[m.stack.size - 1 - n.toNat]? = some (.object r) → (m.heap.closure? r).isSome →
      call.base < m.stack.size - n.toNat - 1 → m'.stack = m.stack →
      m'.frames = ⟨r, function, 0, m.stack.size - n.toNat - 1⟩ :: { call with ip := call.ip + 2 } ::
        outer → Moves m call outer m'
  | returned (v : Value) : m.next? = some (call, .ret) → m.stack.back? = some v →
      m'.frames = outer → call.base < m.stack.size - 1 →
      m'.stack = (m.stack.pop.shrink call.base).push v → Moves m call outer m'

section Moves

variable {m : Machine} {call : Frame} {outer : List Frame}

theorem frames_of_running (running : m.step.1 = .running) : m.step.2.frames ≠ [] := by
  cases hf : m.frames with
  | nil =>
    rw [step_idle hf] at running
    cases running
  | cons call outer =>
    have ends : Ends instruction m (fun _ _ => True) fun _ _ => True := by
      unfold Ends
      split <;> trivial
    obtain ⟨m', -, e⟩ | ⟨s, m', -, e⟩ := step_cases hf ends
    · rw [e] at running ⊢
      intro idle
      simp [progress, show m'.frames = [] from idle] at running
    · rw [e] at running
      exact absurd running running_stopWith

theorem ends_assignUpvalue {i : UInt8} {k : Closure} (hf : m.frames = call :: outer)
    (hk : m.heap.closure? call.closure = some k) :
    Ends (assignUpvalue i) m (fun _ m' => m'.frames = m.frames ∧ ∀ slot,
      (∀ r, k.upvalues[i.toNat]? = some r → m.heap.upvalue? r ≠ some (.opened slot)) →
        m'.stack[slot]? = m.stack[slot]?) fun _ _ => True := by
  cases hr : k.upvalues[i.toNat]? with
  | none =>
    refine .bind (.bind (.frame hf (.bind (.get ?_))))
    rw [hk]
    simp only [Option.bind_some, hr]
    exact trivial
  | some r =>
    refine .bind (.upvalueRef hf hk hr (.bind ?_))
    refine (Keeps.peek 0 m rfl : Ends _ _ (fun _ m' => m' = m) fun _ m' => m' = m).imp
      (fun v m' e => ?_) fun _ _ _ => trivial
    subst e
    refine .bind (.get ?_)
    split
    next s hu =>
      refine .bind (.get ?_)
      split
      · refine .modify ⟨rfl, fun slot other => ?_⟩
        have ne : s ≠ slot := by
          rintro rfl
          exact other r rfl hu
        exact Array.getElem?_setIfInBounds_ne ne
      · exact trivial
    next => exact .modify ⟨rfl, fun _ _ => rfl⟩
    next => exact trivial

theorem ends_callClosure_frames (r : Ref) (n : Nat) :
    Ends (callClosure r n) m (fun _ m' => ∃ function, m' = { m with
      frames := ⟨r, function, 0, m.stack.size - n - 1⟩ :: m.frames }) fun _ m' => m' = m := by
  refine .bind (.get ?_)
  dsimp only
  split
  next => exact .throw rfl
  next k _ =>
    split
    · exact .fail rfl
    · refine .bind (.get ?_)
      split
      · exact .modify ⟨k.function, rfl⟩
      · exact .fail rfl

theorem ends_endCall_frames (hf : m.frames = call :: outer) :
    Ends endCall m (fun _ m' => m'.frames = outer ∧ (outer = [] ∨ ∃ v, m.stack.back? = some v ∧
      m'.stack = (m.stack.pop.shrink call.base).push v)) fun _ _ => True := by
  refine .bind (.bind (.get ?_))
  split
  next v hv =>
    refine .bind (.modify (.pure (.bind (.frame hf (.bind (.modify (.bind (.truncate
      (.bind (.get ?_))))))))))
    rw [closeUpvalues_eq, hf]
    dsimp only [List.tail_cons]
    cases outer with
    | nil => exact .pure ⟨rfl, .inl rfl⟩
    | cons frame outer => exact .push ⟨rfl, .inr ⟨v, hv, rfl⟩⟩ trivial
  next => exact trivial

/-- A call of a closure begins, or a native leaves its result above the ground. -/
theorem ends_startCall_frames {g : Ground} {n : UInt8} (h : g.Over (n.toNat + 1) m) :
    Ends (startCall n) m (fun _ m' => g.Over 1 m' ∨ ∃ r function,
      m.stack[m.stack.size - 1 - n.toNat]? = some (.object r) ∧ (m.heap.closure? r).isSome ∧
      m' = { m with frames := ⟨r, function, 0, m.stack.size - n.toNat - 1⟩ :: m.frames })
      fun _ _ => True := by
  have room := h.room
  refine .bind (.peek (by omega) fun callee hc => ?_)
  split
  next r =>
    refine .bind (.get ?_)
    dsimp only
    split
    next closure =>
      exact (ends_callClosure_frames r n.toNat).imp
        (fun _ _ ⟨function, e⟩ => .inr ⟨r, function, hc, closure, e⟩) fun _ _ _ => trivial
    next =>
      split
      · have h : g.Over (0 + (n.toNat + 1)) m := by rwa [Nat.zero_add]
        exact (Ground.Rests.callNative r n.toNat m h).imp (fun _ _ => .inl) fun _ _ _ => trivial
      · exact trivial
  next => exact trivial

end Moves

namespace Ahead

variable {m : Machine} {call : Frame} {outer : List Frame} {k : Closure} {f : Function}
  {c pre post : Layout} {x : Item} {τ ρ : Shape}

/-- What an instruction takes is above the lowest slot of its frame. -/
theorem room (a : Ahead m call outer k f c pre post x τ ρ) {i : Instruction}
    {is : List Instruction} (hx : x.code = i :: is) :
    call.base + 1 + (effect i).1 ≤ m.stack.size := by
  have fine := a.fine
  rw [a.size, a.base]
  cases x with
  | plain i =>
    cases hx
    obtain ⟨top, rest, rfl, rooted, takes, -, -⟩ := fine
    have := List.length_pos_iff.2 rooted.ne_nil
    simp only [List.length_append, Layout.length_of_takes takes]
    omega
  | closure i captures =>
    cases hx
    have := List.length_pos_iff.2 fine.1.ne_nil
    simp only [List.length_append, effect]
    omega

theorem moves (a : Ahead m call outer k f c pre post x τ ρ) (running : m.step.1 = .running) :
    Moves m call outer m.step.2 := by
  obtain ⟨i, is, hx⟩ : ∃ i is, x.code = i :: is := by cases x <;> exact ⟨_, _, rfl⟩
  have room := a.room hx
  have next := a.next? hx
  have fetched {Q : Machine → Prop} {E : Stop → Machine → Prop}
      (h : Ends (execute i) { m with frames := { call with ip := call.ip + i.size } :: outer }
        (fun _ => Q) E) : Q m.step.2 :=
    step_running a.frames (.bind (.fetch a.frames a.active.function (a.read? hx) h)) running
  let g : Ground := ⟨call, outer, m.stack, call.base + 1⟩
  have start : g.Over (effect i).1
      { m with frames := { call with ip := call.ip + i.size } :: outer } :=
    ⟨⟨_, rfl⟩, room, fun _ _ => rfl⟩
  have onward {n : Nat} {m' : Machine} (h : g.Over n m') : Moves m call outer m' := by
    obtain ⟨ip, frames⟩ := h.frames
    exact .onward ip frames fun slot hs _ => h.below slot (Nat.lt_succ_of_le hs)
  by_cases upvalue : ∃ j, i = .setUpvalue j
  · obtain ⟨j, rfl⟩ := upvalue
    obtain ⟨frames, below⟩ := fetched (ends_assignUpvalue rfl a.active.closure)
    exact .onward _ frames fun slot _ other => below slot fun r hr hu =>
      other ⟨call, j, k, r, next, a.active.closure, hr, hu⟩
  · by_cases calls : ∃ n, i = .call n
    · obtain ⟨n, rfl⟩ := calls
      obtain h | ⟨r, function, callee, closure, e⟩ := fetched (ends_startCall_frames start)
      · exact onward h
      · rw [e]
        simp only [effect] at room
        exact .called n r function next callee closure (by omega) rfl rfl
    · by_cases ret : i = .ret
      · subst ret
        obtain ⟨frames, idle | ⟨v, last, stack⟩⟩ := fetched (ends_endCall_frames rfl)
        · exact absurd (frames.trans idle) (frames_of_running running)
        · simp only [effect] at room
          exact .returned v next last frames (by omega) stack
      · refine onward (fetched (Ground.Rests.execute rfl (fun j e => ?_) (fun j e => upvalue ⟨j, e⟩)
          (fun n e => calls ⟨n, e⟩) ret _ start))
        subst e
        cases x with
        | plain i =>
          cases hx
          obtain ⟨_, _, _, _, _, admits, _⟩ := a.fine
          exact admits.1
        | closure => cases hx

end Ahead

end Machine
end StackScript
