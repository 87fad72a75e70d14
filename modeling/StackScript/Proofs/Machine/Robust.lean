import StackScript.Proofs.Machine.Checked
import StackScript.Proofs.Machine.Reachable

/-!
# StackScript.Proofs.Machine.Robust

Whatever the bytecode is, a machine does not crash, keeps within its limits, and can be used again
once a script has ended or failed.

* `Bounded`: a machine within its limits.
* `Busy`: the same in the middle of an instruction.
* `Bounded.step_robust`: steps do not crash and stay within the limits.
* `Bounded.run`: so do runs.
-/

namespace StackScript
namespace Machine

/-- A machine without functions of the host, within its limits. The outermost call has its callee at
the bottom of the stack; without a call there is nothing on the stack. -/
structure Bounded (m : Machine) : Prop where
  frames : m.frames.length ≤ frameLimit
  stack : m.stack.size ≤ stackLimit
  bottom : ∀ call, m.frames.getLast? = some call → call.base = 0
  idle : m.frames = [] → m.stack = #[] ∧ m.openUpvalues = []
  hosts : m.hosts = #[]
  natives : Builtins m.heap

/-- A machine in the middle of an instruction. -/
structure Busy (m : Machine) : Prop where
  active : m.frames ≠ []
  frames : m.frames.length ≤ frameLimit
  stack : m.stack.size ≤ stackLimit
  bottom : ∀ call, m.frames.getLast? = some call → call.base = 0
  hosts : m.hosts = #[]
  natives : Builtins m.heap

/-- What is left of the limits where an instruction is stopped. -/
structure Tame (m : Machine) : Prop where
  hosts : m.hosts = #[]
  natives : Builtins m.heap

/-- No call, no value and no open upvalue is left. -/
structure Emptied (m : Machine) : Prop where
  frames : m.frames = []
  stack : m.stack = #[]
  openUpvalues : m.openUpvalues = []

theorem Busy.bounded {m : Machine} (h : Busy m) : Bounded m :=
  ⟨h.frames, h.stack, h.bottom, fun idle => (h.active idle).elim, h.hosts, h.natives⟩

theorem Busy.tame {m : Machine} (h : Busy m) : Tame m := ⟨h.hosts, h.natives⟩

theorem Bounded.busy {m : Machine} (h : Bounded m) (active : m.frames ≠ []) : Busy m :=
  ⟨active, h.frames, h.stack, h.bottom, h.hosts, h.natives⟩

theorem Busy.stable : Stable Busy where
  hosts h := h.hosts
  push v h room := ⟨h.active, h.frames, by rw [Array.size_push]; exact room, h.bottom, h.hosts,
    h.natives⟩
  shrink h fewer := ⟨h.active, h.frames, Nat.le_trans fewer h.stack, h.bottom, h.hosts, h.natives⟩
  ip {m call outer} ip h hf := by
    have frames := h.frames
    have bottom := h.bottom
    rw [hf] at frames bottom
    refine ⟨by simp, frames, h.stack, ?_, h.hosts, h.natives⟩
    cases outer with
    | nil =>
      intro call' hc
      cases hc
      exact bottom call rfl
    | cons call' outer => simpa using bottom
  call {m} closure function base h room := by
    refine ⟨by simp, room, h.stack, fun call hc => h.bottom call ?_, h.hosts, h.natives⟩
    obtain ⟨call', outer, hf⟩ := List.exists_cons_of_ne_nil h.active
    rw [hf] at hc ⊢
    simpa using hc
  heap h onward := ⟨h.active, h.frames, h.stack, h.bottom, h.hosts, h.natives.onward onward⟩
  upvalues _ h := ⟨h.active, h.frames, h.stack, h.bottom, h.hosts, h.natives⟩
  globals _ h := ⟨h.active, h.frames, h.stack, h.bottom, h.hosts, h.natives⟩
  outside _ _ h := ⟨h.active, h.frames, h.stack, h.bottom, h.hosts, h.natives⟩

/-- Closing upvalues from the bottom of the stack on leaves none of them open. -/
theorem closeFrom_zero (stack : Array Value) (opens : List Ref) :
    ∀ h : Heap, (closeFrom 0 stack h opens).2 = [] := by
  induction opens with
  | nil => exact fun _ => rfl
  | cons r opens ih =>
    intro h
    rw [closeFrom]
    split
    next slot _ =>
      rw [if_neg (Nat.not_lt_zero slot)]
      exact ih _
    next => exact ih h

/-- A machine that was stopped can be used again. -/
theorem Tame.reset {m : Machine} (h : Tame m) : Bounded m.reset ∧ Emptied m.reset := by
  refine ⟨⟨Nat.zero_le _, Nat.zero_le _, fun call hc => ?_, fun _ => ⟨rfl, rfl⟩, h.hosts,
    h.natives.onward (onward_closeFrom ..)⟩, rfl, rfl, rfl⟩
  cases hc

/-- The end of the outermost call leaves nothing behind. The end of another call leaves the calls
around it. -/
theorem Busy.endCall {m : Machine} (h : Busy m) :
    Ends endCall m (fun _ => Bounded) fun _ => Tame := by
  refine .bind ((Keeps.pop Busy.stable m h).imp (fun v m₁ h => ?_) fun _ _ => Busy.tame)
  obtain ⟨call, outer, hf⟩ := List.exists_cons_of_ne_nil h.active
  refine .bind (.frame hf (.bind (.modify (.bind (.truncate (.bind (.get ?_)))))))
  have size := h.frames
  rw [hf] at size
  cases outer with
  | nil =>
    have base : call.base = 0 := h.bottom call (by rw [hf]; rfl)
    rw [hf, base]
    refine .pure ⟨Nat.zero_le _, ?_, fun call hc => ?_, fun _ => ⟨?_, closeFrom_zero ..⟩, h.hosts,
      h.natives.onward (onward_closeFrom ..)⟩
    · rw [Array.size_shrink]
      exact Nat.zero_le _
    · cases hc
    · exact Array.eq_empty_of_size_eq_zero (by rw [Array.size_shrink]; exact Nat.zero_min _)
  | cons call' outer =>
    have ended : Busy { m₁ with frames := m₁.frames.tail } := by
      rw [hf]
      refine ⟨by simp, Nat.le_of_succ_le size, h.stack, fun c hc => h.bottom c ?_, h.hosts,
        h.natives⟩
      rw [hf]
      simpa using hc
    have closed := Busy.stable.gentle.closeUpvalues ended call.base
    have dropped := Keeps.truncate Busy.stable call.base _ closed
    have pushed := Keeps.push Busy.stable v _ dropped
    rw [hf] at pushed ⊢
    exact pushed.imp (fun _ _ => Busy.bounded) fun _ _ => Busy.tame

/-- With whatever search, an instruction does not crash. -/
theorem Busy.instruction {m : Machine} (h : Busy m) (s : Search) :
    Safely (Checked.instruction s) m (fun _ => Bounded) fun _ => Tame := by
  refine .bind (.ofExec ((Keeps.fetch Busy.stable m h).imp (fun i m₁ h => ?_) fun _ _ => Busy.tame))
  by_cases hi : ∃ k, i = .closure k
  · obtain ⟨k, rfl⟩ := hi
    exact (safely_makeClosure Busy.stable s h k).imp (fun _ _ => Busy.bounded) fun _ _ => Busy.tame
  · refine .ofAgrees (agrees_execute (fun k e => hi ⟨k, e⟩) h.natives) ?_
    by_cases hr : i = .ret
    · subst hr
      exact h.endCall
    · exact (Keeps.execute Busy.stable hr m₁ h).imp (fun _ _ => Busy.bounded) fun _ _ => Busy.tame

/-- What a step leads to, as long as the script does not ask to end the program. -/
def Settled (p : Progress) (m : Machine) : Prop :=
  p.Stays → Bounded m ∧ (p ≠ .running → Emptied m)

theorem settled_stopWith {m : Machine} (h : Tame m) (stop : Stop) :
    Settled (m.stopWith stop).1 (m.stopWith stop).2 := by
  obtain ⟨bounded, emptied⟩ := h.reset
  cases stop with
  | exit code => exact fun stays => (stays code rfl).elim
  | _ => exact fun _ => ⟨bounded, fun _ => emptied⟩

theorem settled_progress {m : Machine} (h : Bounded m) : Settled m.progress m := by
  refine fun _ => ⟨h, fun ended => ?_⟩
  unfold progress at ended
  split at ended
  next idle =>
    have idle : m.frames = [] := by simpa using idle
    exact ⟨idle, (h.idle idle).1, (h.idle idle).2⟩
  next => exact (ended rfl).elim

theorem Bounded.checked_step {m : Machine} (h : Bounded m) (s : Search) :
    ∃ p m', Checked.step s m = some (p, m') ∧ Settled p m' := by
  unfold Checked.step
  split
  next idle =>
    have idle : m.frames = [] := by simpa using idle
    exact ⟨_, _, rfl, fun _ => ⟨h, fun _ => ⟨idle, (h.idle idle).1, (h.idle idle).2⟩⟩⟩
  next active =>
    have safe := (h.busy (by simpa using active)).instruction s
    unfold Safely at safe
    cases hx : Checked.instruction s m with
    | ok _ m' =>
      rw [hx] at safe
      exact ⟨_, _, rfl, settled_progress safe⟩
    | error halt m' =>
      rw [hx] at safe
      cases halt with
      | stop stop => exact ⟨_, _, rfl, settled_stopWith safe stop⟩
      | crash => exact safe.elim

/-- The machine steps as the one that could crash does, if both search alike. -/
theorem Bounded.step_linear {m : Machine} (h : Bounded m) :
    Checked.step .linear m = some m.step := by
  unfold Checked.step step
  split
  next => rfl
  next active =>
    have busy := h.busy (by simpa using active)
    have agrees := agrees_instruction Busy.stable (fun _ h => h.natives) busy
    unfold Agrees Checked.ofExec at agrees
    rw [agrees, EStateM.run]
    cases instruction m <;> rfl

/-- From any machine within its limits, whatever the functions on its heap are, a step finds every
element, every slot of a table and every difference that it takes, for every search among the open
upvalues. It stays within the limits, and where it ends the script or fails, nothing is left on the
stacks. The machine itself is the one that searches down the stack. -/
theorem Bounded.step_robust {m : Machine} (h : Bounded m) :
    (∀ s, ∃ p m', Checked.step s m = some (p, m') ∧
      (p.Stays → Bounded m' ∧ (p ≠ .running → Emptied m'))) ∧
    Checked.step .linear m = some m.step ∧
    (m.step.1.Stays → Bounded m.step.2 ∧ (m.step.1 ≠ .running → Emptied m.step.2)) := by
  refine ⟨h.checked_step, h.step_linear, ?_⟩
  obtain ⟨p, m', e, settled⟩ := h.checked_step .linear
  have same := Option.some.inj (h.step_linear.symm.trans e)
  rw [same]
  exact settled

/-- A call of a function whose code calls a value deeper than the stack and ends within an operand.
Its closure and the open upvalue are no objects of the heap. -/
def garbled : Machine where
  frames := [⟨⟨7⟩, ⟨1⟩, 0, 0⟩]
  stack := #[.nil]
  globals := .empty
  openUpvalues := [⟨9⟩]
  heap := ((Heap.empty.allocate (.native ⟨"len", 1, .builtin .length⟩)).1.allocate
    (.function ⟨none, 3, 250, ⟨#[27, 200, 26, 1], #[], #[]⟩⟩)).1
  output := .unlimited
  world := .still
  hosts := #[]

theorem bounded_garbled : Bounded garbled := by
  refine ⟨by decide, by decide, fun call hc => ?_, fun idle => ?_, rfl, fun r n hn => ?_⟩
  · cases hc
    rfl
  · cases idle
  · obtain old | ⟨e, -⟩ := Heap.get?_allocate_cases (Heap.native?_eq_some.1 hn)
    · obtain old | ⟨e, -⟩ := Heap.get?_allocate_cases old
      · cases old
      · cases e
        exact ⟨.length, rfl, rfl⟩
    · cases e

/-- A step that fails. -/
theorem step_robust_garbled :
    Bounded garbled ∧
    (∀ s, ∃ p m', Checked.step s garbled = some (p, m') ∧
      (p.Stays → Bounded m' ∧ (p ≠ .running → Emptied m'))) ∧
    Checked.step .linear garbled = some garbled.step ∧
    (garbled.step.1.Stays → Bounded garbled.step.2 ∧
      (garbled.step.1 ≠ .running → Emptied garbled.step.2)) :=
  ⟨bounded_garbled, bounded_garbled.step_robust⟩

/-- A run stays within the limits, and leaves nothing behind where it ends. -/
theorem Bounded.run {m : Machine} (h : Bounded m) {n : Nat} (stays : (m.run n).1.Stays) :
    Bounded (m.run n).2 ∧ ((m.run n).1 ≠ .running → Emptied (m.run n).2) := by
  induction n generalizing m with
  | zero => exact ⟨h, fun ended => (ended rfl).elim⟩
  | succ n ih =>
    obtain ⟨p, m', e, settled⟩ := h.checked_step .linear
    have same := Option.some.inj (h.step_linear.symm.trans e)
    by_cases running : m.step.1 = .running
    · rw [run_of_running running] at stays ⊢
      rw [same] at running stays ⊢
      have still : p.Stays := fun code e => by
        cases running.symm.trans e
      exact ih (settled still).1 stays
    · rw [run_of_stopped running] at stays ⊢
      rw [same] at stays ⊢
      exact settled stays

end Machine
end StackScript
