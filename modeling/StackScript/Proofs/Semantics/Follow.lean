import StackScript.Proofs.Machine.Outcome
import StackScript.Proofs.Machine.Trace
import StackScript.Proofs.Semantics.Evaluate

/-!
# StackScript.Proofs.Semantics.Follow

A machine that does what an evaluation does.

* `Live`: a machine that runs a script and does not run out of handles.
* `Ended`: the next step ends the run in the way in which an evaluation has ended.
* `Follows`: the machine comes to where an evaluation leads, or ends with it, or runs on for as long
  as the evaluation is cut off.
* `Follows.bind`, `Follows.loop`: one evaluation after the other, and rounds of a loop.
-/

namespace StackScript
namespace Semantics

open Machine

/-- A machine that runs a script and has handles for all objects to come. -/
structure Live (m : Machine) : Prop where
  runs : ∃ script, Machine.Runs script m
  fits : ∀ n, (m.run n).2.heap.size ≤ UInt32.size

theorem run_one {m m' : Machine} (h : m.step = (.running, m')) : m.run 1 = (.running, m') := by
  rw [run_of_running (by rw [h]), h]
  rfl

namespace Live

variable {m m' : Machine}

theorem size (l : Live m) : m.heap.size ≤ UInt32.size := l.fits 0

theorem size_step (l : Live m) : m.step.2.heap.size ≤ UInt32.size := by
  have fits := l.fits 1
  by_cases running : m.step.1 = .running
  · rwa [run_of_running running] at fits
  · rwa [run_of_stopped running] at fits

theorem hosts (l : Live m) : m.hosts = #[] := by
  obtain ⟨script, runs⟩ := l.runs
  exact runs.limited.hosts

theorem room (l : Live m) : m.stack.size ≤ stackLimit := by
  obtain ⟨script, runs⟩ := l.runs
  exact runs.limited.stack

theorem invariant (l : Live m) : Invariant m := by
  obtain ⟨script, runs⟩ := l.runs
  exact runs.invariant

theorem run {k : Nat} (l : Live m) (h : m.run k = (.running, m')) : Live m' where
  runs := by
    obtain ⟨script, runs⟩ := l.runs
    have fits := l.fits k
    rw [h] at fits
    exact ⟨script, runs.run h fits⟩
  fits n := by
    have fits := l.fits (k + n)
    rwa [run_add h] at fits

theorem step (l : Live m) (h : m.step = (.running, m')) : Live m' := l.run (run_one h)

end Live

/-- How a run ends when an evaluation ends early. -/
def Halt.Tells : Halt → Progress → Prop
  | .fault f calls, p => ∃ trace, p = .failed (.runtime f trace) ∧
      trace.map TraceLine.function = calls
  | .full calls, p => ∃ trace, p = .failed (.runtime .stackOverflow trace) ∧
      trace.map TraceLine.function = calls
  | .output cause, p => p = .failed (.output cause)
  | .exit code, p => p = .exited code

/-- The next step ends the run as an evaluation has ended. -/
structure Ended (halt : Halt) (s : Store) (m : Machine) : Prop where
  tells : halt.Tells m.step.1
  output : m.step.2.output = s.output
  full : ∀ calls, halt = .full calls → m.stack.size = stackLimit

section Apply

variable {α β : Type} {s : Store}

theorem bind_apply (x : Eval α) (f : α → Eval β) : (x >>= f) s =
    match x s with
    | none => none
    | some (.ok a, s') => f a s'
    | some (.error e, s') => some (.error e, s') := by
  simp only [Bind.bind, ExceptT.bind, ExceptT.mk, StateT.bind]
  cases x s with
  | none => rfl
  | some p =>
    obtain ⟨a, s'⟩ := p
    cases a <;> rfl

theorem get_bind_apply (f : Store → Eval β) : (get >>= f) s = f s s := rfl

theorem printLine_apply (v : Val) : printLine v s =
    let r := s.output.write (s.display v ++ "\n")
    if r.2 then some (.ok (), { s with output := r.1 })
    else some (.error (.output .full), { s with output := r.1 }) := by
  have e : printLine v s =
      (do
        unless (s.output.write (s.display v ++ "\n")).2 do
          throw (.output .full) : Eval Unit)
        { s with output := (s.output.write (s.display v ++ "\n")).1 } := rfl
  rw [e]
  dsimp only
  cases (s.output.write (s.display v ++ "\n")).2 <;> rfl

end Apply

/-- A machine does what an evaluation does, given what the evaluation has come to. -/
def Follows {α : Type} (n : Nat) (r : Option (Except Halt α × Store)) (m : Machine)
    (Q : α → Store → Machine → Prop) : Prop :=
  match r with
  | none => (m.run n).1 = .running
  | some (.ok a, s) => ∃ k m', m.run k = (.running, m') ∧ Q a s m'
  | some (.error halt, s) => ∃ k m', m.run k = (.running, m') ∧ Ended halt s m'

namespace Follows

variable {α β : Type} {n : Nat} {m m' : Machine} {s : Store} {Q : α → Store → Machine → Prop}
  {R : β → Store → Machine → Prop} {r : Option (Except Halt α × Store)}

theorem running_of_le {j : Nat} (le : n ≤ j) (h : (m.run j).1 = .running) :
    (m.run n).1 = .running := by
  induction n generalizing m j with
  | zero => rfl
  | succ n ih =>
    obtain ⟨j, rfl⟩ := Nat.exists_eq_add_of_lt le
    by_cases running : m.step.1 = .running
    · rw [run_of_running running]
      rw [run_of_running running] at h
      exact ih (Nat.le_add_right n j) h
    · rw [run_of_stopped running] at h
      exact absurd h running

theorem pure {a : α} (h : Q a s m) : Follows n ((Pure.pure a : Eval α) s) m Q := ⟨0, m, rfl, h⟩

/-- What is followed for some time is followed for less. -/
theorem less {j : Nat} (f : Follows j r m Q) (le : n ≤ j) : Follows n r m Q := by
  cases r with
  | none => exact running_of_le le f
  | some p =>
    obtain ⟨a, s⟩ := p
    cases a <;> exact f

/-- Some steps later. -/
theorem after {k : Nat} (h : m.run k = (.running, m')) (f : Follows n r m' Q) :
    Follows (k + n) r m Q := by
  cases r with
  | none =>
    have running : (m'.run n).1 = .running := f
    rwa [← run_add h] at running
  | some p =>
    obtain ⟨a, s⟩ := p
    cases a with
    | ok a =>
      obtain ⟨j, m'', hj, q⟩ := f
      exact ⟨k + j, m'', (run_add h j).trans hj, q⟩
    | error halt =>
      obtain ⟨j, m'', hj, e⟩ := f
      exact ⟨k + j, m'', (run_add h j).trans hj, e⟩

theorem step (h : m.step = (.running, m')) (f : Follows n r m' Q) : Follows (n + 1) r m Q := by
  rw [Nat.add_comm]
  exact f.after (run_one h)

theorem imp {Q' : α → Store → Machine → Prop} (f : Follows n r m Q)
    (h : ∀ a s m', Q a s m' → Q' a s m') : Follows n r m Q' := by
  cases r with
  | none => exact f
  | some p =>
    obtain ⟨a, s⟩ := p
    cases a with
    | ok a =>
      obtain ⟨j, m', hj, q⟩ := f
      exact ⟨j, m', hj, h a s m' q⟩
    | error halt => exact f

theorem bind {x : Eval α} {f : α → Eval β} (hx : Follows n (x s) m Q)
    (hf : ∀ a s' m', Q a s' m' → Follows n (f a s') m' R) : Follows n ((x >>= f) s) m R := by
  rw [bind_apply]
  cases hr : x s with
  | none =>
    rw [hr] at hx
    exact hx
  | some p =>
    rw [hr] at hx
    obtain ⟨a, s'⟩ := p
    cases a with
    | ok a =>
      obtain ⟨k, m', hk, q⟩ := hx
      exact ((hf a s' m' q).after hk).less (Nat.le_add_left n k)
    | error halt => exact hx

theorem reach {a : α} {k : Nat} (run : m.run k = (.running, m')) (h : Q a s m') :
    Follows n ((Pure.pure a : Eval α) s) m Q := ⟨k, m', run, h⟩

/-- A step without a counterpart in the evaluation. -/
theorem stepped (h : m.step = (.running, m')) (f : Follows n r m' Q) : Follows n r m Q :=
  (f.step h).less (Nat.le_succ n)

/-- Steps behind what is evaluated. -/
theorem further {Q' : α → Store → Machine → Prop} (f : Follows n r m Q)
    (h : ∀ a s m', Q a s m' → ∃ k m'', m'.run k = (.running, m'') ∧ Q' a s m'') :
    Follows n r m Q' := by
  cases r with
  | none => exact f
  | some p =>
    obtain ⟨a, s⟩ := p
    cases a with
    | ok a =>
      obtain ⟨j, m', hj, q⟩ := f
      obtain ⟨k, m'', hk, q'⟩ := h a s m' q
      exact ⟨j + k, m'', (run_add hj k).trans hk, q'⟩
    | error halt => exact f

/-- Rounds of a loop, each of which takes a step at least behind what it evaluates. -/
theorem loop {x : Eval (Option α)} {P : Store → Machine → Prop}
    (each : ∀ s m, P s m → Follows n (x s) m fun a s' m' =>
      match a with
      | some a => Q a s' m'
      | none => ∃ m'', m'.step = (.running, m'') ∧ P s' m'') :
    ∀ {j : Nat} {s : Store} {m : Machine}, j ≤ n → P s m → Follows j (Semantics.loop j x s) m Q := by
  intro j
  induction j with
  | zero => exact fun _ _ => rfl
  | succ j ih =>
    intro s m le p
    refine ((each s m p).less le).bind fun a s' m' q => ?_
    cases a with
    | some a => exact .pure q
    | none =>
      obtain ⟨m'', step, p'⟩ := q
      exact (ih (Nat.le_of_succ_le le) p').step step

end Follows

end Semantics
end StackScript
