import StackScript.Proofs.Semantics.Meaning

/-!
# StackScript.Proofs.Semantics.Outcome

What comes of a source on a new machine.

* `Yields`: a run ends in a certain way and has printed a certain output.
* `unlined`: the end of a run without the lines of its trace. The end of a script tells that much
  (`Concludes.unlined_eq`).
* `Yields.script`, `Sourced.yields`: a run yields what its script comes to.
* `Roomy.script`, `Roomy.yields`: if it does not overflow, this is what the script comes to without
  limits.
-/

namespace StackScript
namespace Semantics

open Machine
open Syntax (Stmt)

/-- How a run of a new machine ends, and what it has printed by then. -/
structure Yields (output : Output) (world : World) (source : String) (p : Progress)
    (printed : Output) : Prop where
  ended : p ≠ .running
  run : ∃ n m, (Machine.new output world).interpret n source = (p, m) ∧ m.output = printed

/-- The end of a run without the lines in its trace. -/
def unlined : Progress → Progress
  | .failed (.runtime f trace) => .failed (.runtime f (trace.map fun t => { t with line := 0 }))
  | p => p

/-- The run ended for want of stack or calls. -/
def Overflows (p : Progress) : Prop := ∃ trace, p = .failed (.runtime .stackOverflow trace)

variable {output : Output} {world : World} {source : String} {a : Stmt} {p p' : Progress}
  {printed printed' : Output}

theorem unlined_trace {trace trace' : List TraceLine}
    (h : trace.map TraceLine.function = trace'.map TraceLine.function) :
    (trace.map fun t => { t with line := 0 }) = trace'.map fun t => { t with line := 0 } := by
  have without (l : List TraceLine) : (l.map fun t => { t with line := 0 }) =
      (l.map TraceLine.function).map (TraceLine.mk 0) := by
    rw [List.map_map]
    rfl
  rw [without, without, h]

theorem Concludes.unlined_eq {r : Except Halt Unit} (h : Concludes r p) (h' : Concludes r p') :
    unlined p = unlined p' := by
  cases r with
  | ok =>
    cases h
    cases h'
    rfl
  | error halt =>
    cases halt with
    | fault | full =>
      obtain ⟨trace, rfl, e⟩ := h
      obtain ⟨trace', rfl, e'⟩ := h'
      rw [unlined, unlined, unlined_trace (e.trans e'.symm)]
    | output | exit =>
      cases h
      cases h'
      rfl

/-- A source yields one thing at most. -/
theorem Yields.unique (h : Yields output world source p printed)
    (h' : Yields output world source p' printed') : p = p' ∧ printed = printed' := by
  obtain ⟨ended, n, m, run, rfl⟩ := h
  obtain ⟨ended', n', m', run', rfl⟩ := h'
  have same : (Machine.new output world).interpret n source =
      (Machine.new output world).interpret n' source := by
    unfold interpret at run run' ⊢
    cases hl : (Machine.new output world).load source with
    | mk result loaded =>
      rw [hl] at run run'
      cases result with
      | ok =>
        have run : loaded.run n = (p, m) := run
        have run' : loaded.run n' = (p', m') := run'
        exact run_unique (by rw [run]; exact ended) (by rw [run']; exact ended')
      | error => rfl
  rw [run, run'] at same
  cases same
  exact ⟨rfl, rfl⟩

theorem Yields.script (h : Sourced output world source a)
    (yields : Yields output world source p printed) : ∃ n r s,
      Semantics.script machineLimits n a (Store.initial output world) = some (r, s) ∧
        Concludes r p ∧ s.output = printed := by
  obtain ⟨ended, n, m, run, rfl⟩ := yields
  obtain ⟨r, s, ends, concludes, same⟩ := h.script run ended
  exact ⟨n, r, s, ends, concludes, same.symm⟩

theorem Sourced.yields (h : Sourced output world source a) {n : Nat} {r : Except Halt Unit}
    {s : Store}
    (ends : Semantics.script machineLimits n a (Store.initial output world) = some (r, s)) :
    ∃ p, Yields output world source p s.output ∧ Concludes r p := by
  obtain ⟨k, p, m, run, concludes, same⟩ := h.interpret ends
  exact ⟨p, ⟨concludes.stopped, k, m, run, same⟩, concludes⟩

section Run

variable {n : Nat}

theorem compiles_of_unfailed {m : Machine} (unfailed : ∀ e, (m.interpret n source).1 ≠ .failed e) :
    ∃ r, (Compile.compile source m.heap).result = .ok r := by
  cases h : (Compile.compile source m.heap).result with
  | ok r => exact ⟨r, rfl⟩
  | error errors =>
    refine absurd ?_ (unfailed (.compile errors))
    rw [interpret, load]
    simp only [h]

theorem fits_of_run (ended : ((Machine.new output world).interpret n source).1 ≠ .running)
    (fits : ((Machine.new output world).interpret n source).2.heap.size ≤ UInt32.size) (j : Nat) :
    ((Machine.new output world).interpret j source).2.heap.size ≤ UInt32.size :=
  Nat.le_trans (size_interpret_le (holds_new output world).hosts ended j) fits

/-- A source that a new machine runs to its end. -/
theorem Sourced.of_run (parses : Syntax.Parses source a)
    (finished : ((Machine.new output world).interpret n source).1 = .finished)
    (fits : ((Machine.new output world).interpret n source).2.heap.size ≤ UInt32.size) :
    Sourced output world source a :=
  ⟨parses, compiles_of_unfailed fun _ failed => (nomatch finished.symm.trans failed),
    fits_of_run (fun running => (nomatch finished.symm.trans running)) fits⟩

theorem Yields.of_run (finished : ((Machine.new output world).interpret n source).1 = .finished) :
    Yields output world source .finished
      ((Machine.new output world).interpret n source).2.output := by
  have run : (Machine.new output world).interpret n source =
      (.finished, ((Machine.new output world).interpret n source).2) := by
    rw [← finished, Prod.mk.eta]
  exact ⟨nofun, n, _, run, rfl⟩

end Run

section Roomy

/-- The run of a source, if it ends, has not ended for want of stack or calls. -/
def Roomy (output : Output) (world : World) (source : String) : Prop :=
  ∀ p printed, Yields output world source p printed → ¬Overflows p

theorem Roomy.of_yields (h : Yields output world source p printed) (room : ¬Overflows p) :
    Roomy output world source := fun _ _ h' => (h.unique h').1 ▸ room

/-- The limits of the machine against none, for evaluations of the same length. -/
def ample : Race where
  near := machineLimits
  far := .none
  nearExcused halt := halt ≠ none ∧ Hindered halt
  farExcused _ := False
  moved := []
  endless := False

theorem ample_fair : ample.Fair where
  nearFull _ _ _ _ := ⟨nofun, trivial⟩
  farFull _ _ h := nomatch h
  nearDeep _ _ _ _ := ⟨nofun, trivial⟩
  farDeep _ _ h := nomatch h
  endless h := h.elim

theorem Sourced.alike (h : Sourced output world source a) : Syntax.Alike False a a := by
  obtain ⟨r, ok⟩ := h.compiles
  obtain ⟨b, f, heap, parses, code, -⟩ := Compile.compile_ok ok
  obtain rfl := Compile.Parses.unique h.parses parses
  cases code with
  | intro code => exact Syntax.alike_self code

theorem Sourced.ample (h : Sourced output world source a) (n : Nat) :
    Concur ample (fun _ _ s t => s.output = t.output)
      (Semantics.script machineLimits n a (Store.initial output world))
      (Semantics.script .none n a (Store.initial output world)) :=
  script_alike ample_fair ⟨Nat.le_refl n, fun lt => absurd lt (Nat.lt_irrefl n)⟩ rfl
    h.alike output world

/-- What a run yields, the script comes to without limits. -/
theorem Roomy.script (roomy : Roomy output world source) (h : Sourced output world source a)
    (yields : Yields output world source p printed) : ∃ n r s,
      Semantics.script .none n a (Store.initial output world) = some (r, s) ∧ Concludes r p ∧
        s.output = printed := by
  obtain ⟨n, r, s, near, concludes, rfl⟩ := yields.script h
  have concur := h.ample n
  rw [near] at concur
  generalize hr : Semantics.script .none n a (Store.initial output world) = far at concur
  cases concur with
  | ok same | halt same => exact ⟨n, _, _, hr, concludes, same.symm⟩
  | near excused => exact absurd (concludes.hindered excused.2) (roomy p _ yields)
  | far none => exact none.elim

/-- What a script comes to without limits, its run yields. -/
theorem Roomy.yields (roomy : Roomy output world source) (h : Sourced output world source a)
    {n : Nat} {r : Except Halt Unit} {s : Store}
    (ends : Semantics.script .none n a (Store.initial output world) = some (r, s)) :
    ∃ p, Yields output world source p s.output ∧ Concludes r p := by
  have concur := h.ample n
  rw [ends] at concur
  generalize hr : Semantics.script machineLimits n a (Store.initial output world) = near at concur
  cases concur with
  | ok same | halt same =>
    obtain ⟨p, yields, concludes⟩ := h.yields hr
    exact ⟨p, same ▸ yields, concludes⟩
  | near excused =>
    obtain ⟨p, yields, concludes⟩ := h.yields hr
    exact absurd (concludes.hindered excused.2) (roomy p _ yields)
  | nearLate excused => exact absurd rfl excused.1
  | far none => exact none.elim

end Roomy

end Semantics
end StackScript
