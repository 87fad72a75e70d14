import StackScript.Proofs.Semantics.Likewise
import StackScript.Proofs.Semantics.Script

/-!
# StackScript.Proofs.Semantics.Meaning

The machine computes what scripts mean.

* `LeadsTo`: what the evaluation of a script leads to if nothing is in short supply. There is one such
  result at most (`LeadsTo.unique`).
* `unhindered`: more time and more room do not change a result.
* `interpret_means`: a run of the machine ends in the way that the script means, and has printed what
  the script prints.
-/

namespace StackScript
namespace Semantics

open Compile (compile)
open Machine
open Syntax (Stmt Parses)

/-- Evaluated for long enough, and with a stack and calls without limits, a script ends in a certain
way and has printed a certain output. -/
def LeadsTo (a : Stmt) (output : Output) (world : World) (e : Except Halt Unit) (printed : Output) :
    Prop :=
  ∃ least, ∀ n ≥ least, ∃ s, script .none n a (Store.initial output world) = some (e, s) ∧
    s.output = printed

theorem LeadsTo.unique {a : Stmt} {output printed printed' : Output} {world : World}
    {e e' : Except Halt Unit} (h : LeadsTo a output world e printed)
    (h' : LeadsTo a output world e' printed') : e = e' ∧ printed = printed' := by
  obtain ⟨n, h⟩ := h
  obtain ⟨n', h'⟩ := h'
  obtain ⟨s, run, output⟩ := h (max n n') (Nat.le_max_left n n')
  obtain ⟨s', run', output'⟩ := h' (max n n') (Nat.le_max_right n n')
  cases run.symm.trans run'
  exact ⟨rfl, output.symm.trans output'⟩

/-- How an evaluation with limits ends that it would not have without them. -/
def Hindered : Option Halt → Prop
  | none | some (.full _) | some (.fault .stackOverflow _) => True
  | _ => False

/-- The limits of the machine against none. -/
def unhindered : Race where
  near := machineLimits
  far := .none
  nearExcused := Hindered
  farExcused _ := False
  moved := []
  endless := False

theorem unhindered_fair : unhindered.Fair where
  nearFull _ _ _ _ := trivial
  farFull _ _ h := nomatch h
  nearDeep _ _ _ _ := trivial
  farDeep _ _ h := nomatch h
  endless h := h.elim

theorem Concludes.hindered {p : Progress} {halt : Halt} (h : Concludes (.error halt) p)
    (hindered : Hindered (some halt)) : ∃ trace, p = .failed (.runtime .stackOverflow trace) := by
  unfold Hindered at hindered
  split at hindered
  next e => cases e
  next e =>
    cases e
    obtain ⟨trace, e, -⟩ := h
    exact ⟨trace, e⟩
  next e =>
    cases e
    obtain ⟨trace, e, -⟩ := h
    exact ⟨trace, e⟩
  next => exact hindered.elim

/-- Compiled scripts do what their trees mean. A run of a new machine that comes to an end, without
running out of stack, calls or handles, ends in the way in which the evaluation of the tree ends, and
has printed the same: with the same fault in the same functions, if there is one. The clock and the
files may be different at every look: both find the same at their first look, at their second one,
and so on. -/
theorem interpret_means {output : Output} {world : World} {source : String} {r : Ref} {n : Nat}
    {p : Progress} {m : Machine}
    (ok : (compile source (Machine.new output world).heap).result = .ok r)
    (run : (Machine.new output world).interpret n source = (p, m)) (ended : p ≠ .running)
    (fits : m.heap.size ≤ UInt32.size)
    (room : ∀ trace, p ≠ .failed (.runtime .stackOverflow trace)) :
    ∃ a e, Parses source a ∧ LeadsTo a output world e m.output ∧ Concludes e p := by
  obtain ⟨a, f, heap, parses, code, -⟩ := Compile.compile_ok ok
  have sourced : Sourced output world source a := by
    refine ⟨parses, ⟨r, ok⟩, fun j => ?_⟩
    have le := size_interpret_le (holds_new output world).hosts (by rw [run]; exact ended) j
    rw [run] at le
    exact Nat.le_trans le fits
  obtain ⟨e, s, near, concludes, printed⟩ := sourced.script run ended
  refine ⟨a, e, parses, ⟨n, fun k le => ?_⟩, concludes⟩
  have alike : Syntax.Alike unhindered.endless a a := by
    cases code with
    | intro code => exact Syntax.alike_self code
  have concur := script_alike unhindered_fair ⟨le, fun _ => trivial⟩ rfl alike output world
  rw [show unhindered.near = machineLimits from rfl, near] at concur
  generalize hr : script unhindered.far k a (Store.initial output world) = far at concur
  cases concur with
  | ok same => exact ⟨_, hr, same.symm.trans printed.symm⟩
  | halt same => exact ⟨_, hr, same.symm.trans printed.symm⟩
  | near hindered =>
    obtain ⟨trace, e⟩ := concludes.hindered hindered
    exact absurd e (room trace)
  | far none => exact none.elim

/-- A script with a closure whose variable is changed, a loop, an `and` that yields an operand, and
two looks at a file that appears between them. -/
theorem interpret_means_closure :
    let source := "fun keep(x) \x7b fun get() \x7b return x; \x7d x = x + \"b\"; return get; \x7d " ++
      "var g = keep(\"a\"); " ++
      "\x7b var i = nil; while (!i) \x7b i = g() == \"ab\" and \"yes\"; print i; \x7d \x7d " ++
      "print exists(\"log\") == exists(\"log\");"
    let world := { World.still with changes := fun _ => some ⟨1, fun _ => .text ""⟩ }
    let m := Machine.new .unlimited world
    let printed : Output := ⟨"yes\nfalse\n".toUTF8, none⟩
    (compile source m.heap).result = .ok ⟨30⟩ ∧ (m.interpret 50 source).1 = .finished ∧
    (m.interpret 50 source).2.output.octets = printed.octets ∧
    ∃ a e, Parses source a ∧ LeadsTo a .unlimited world e (m.interpret 50 source).2.output ∧
      Concludes e .finished := by
  intro source world m printed
  have ok : (compile source m.heap).result = .ok ⟨30⟩ := by decide +kernel
  have finished : (m.interpret 50 source).1 = .finished := by decide +kernel
  have octets : (m.interpret 50 source).2.output.octets = printed.octets := by decide +kernel
  have size : (m.interpret 50 source).2.heap.size = 35 := by decide +kernel
  have run : m.interpret 50 source = (.finished, (m.interpret 50 source).2) := by
    rw [← finished, Prod.mk.eta]
  refine ⟨ok, finished, octets, interpret_means ok run nofun ?_ nofun⟩
  rw [size]
  decide

end Semantics
end StackScript
