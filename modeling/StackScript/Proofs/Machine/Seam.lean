import StackScript.Proofs.Machine.Stride

/-!
# StackScript.Proofs.Machine.Seam

The end of a script.

* `Spent`: a machine at the end of the body of a script. `cleared`: a machine without calls.
* `Spent.run`, `Spent.finish`: two more instructions clear it, and leave all else as it is.
-/

namespace StackScript
namespace Machine

open Bytecode
open Instruction (width stream)

/-- What is left when nothing of a script is. -/
def cleared (m : Machine) : Machine := { m with frames := [], stack := #[], openUpvalues := [] }

/-- The body of the script that is called has come to its end. -/
def Spent (m : Machine) : Prop :=
  ∃ call f, m.frames = [call] ∧ m.heap.function? call.function = some f ∧ f.IsScript ∧
    call.ip = f.chunk.code.size - 2

section Spent

variable {m m' : Machine} {call : Frame} {outer : List Frame} {f : Function}

theorem step_of_ends {p : Progress} (hm : m.frames = call :: outer) (hp : m'.progress = p)
    (h : Ends instruction m (fun _ m₁ => m₁ = m') fun _ _ => False) : m.step = (p, m') := by
  subst hp
  obtain ⟨m₁, rfl, e⟩ | ⟨_, _, h, _⟩ := step_cases hm h
  · exact e
  · exact h.elim

/-- The last two instructions. -/
theorem read?_of_isScript (h : f.IsScript) {ip : Nat} (hip : ip = f.chunk.code.size - 2) :
    f.chunk.read? ip = some .pushNil ∧ f.chunk.read? (ip + 1) = some .ret := by
  obtain ⟨is, code, -⟩ := h.code
  have size : f.chunk.code.size = width is + 2 := by
    rw [← Array.length_toList, code, Instruction.length_stream, Instruction.width_append]
    rfl
  have first := Chunk.read?_of_code (c := f.chunk) (i := .pushNil) (stream is)
    (stream [.ret]) (by rw [code]; simp)
  have second := Chunk.read?_of_code (c := f.chunk) (i := .ret) (stream (is ++ [.pushNil]))
    [] (by rw [code]; simp)
  rw [Instruction.length_stream] at first second
  rw [Instruction.width_append] at second
  rw [hip, size, Nat.add_sub_cancel]
  exact ⟨first, second⟩

/-- Behind its body, the callee is alone on the stack, and nothing is captured. -/
theorem Invariant.alone (inv : Invariant m) (hm : m.frames = [call])
    (hf : m.heap.function? call.function = some f) (script : f.IsScript)
    (hip : call.ip = f.chunk.code.size - 2) :
    call.base = 0 ∧ m.stack.size = 1 ∧ m.openUpvalues = [] := by
  obtain ⟨k, f', l, pre, post, x, τ, ρ, a⟩ := inv.ahead hm
  obtain rfl := Option.some.inj (hf.symm.trans a.active.function)
  have calls := a.calls
  cases calls
  have next := (read?_of_isScript script hip).1
  have one : τ.length = 1 := a.active.fits.ending script.name τ
    (hip ▸ ⟨pre, τ, x, post, a.layout, a.ip, .refl τ⟩)
  have rooted : τ.Rooted := by
    have fine := a.fine
    cases x with
    | plain i =>
      rw [a.read? rfl] at next
      obtain rfl := Option.some.inj next
      obtain ⟨top, rest, rfl, rooted, takes, -⟩ := fine
      obtain rfl := List.eq_nil_of_length_eq_zero takes.length
      exact rooted
    | closure => exact fine.1
  obtain ⟨b, rfl⟩ := List.length_eq_one_iff.1 one
  obtain rfl := Option.some.inj rooted
  refine ⟨a.base, a.size, List.eq_nil_iff_forall_not_mem.2 fun r hr => ?_⟩
  obtain ⟨slot, hu⟩ := (a.tracked.opened r).1 hr
  have allowed := a.tracked.allowed r slot hu
  have := allowed.lt
  obtain rfl : slot = 0 := by simpa using this
  cases allowed

/-- The last but one instruction. -/
theorem step_pushNil (hm : m.frames = [call]) (hf : m.heap.function? call.function = some f)
    (next : f.chunk.read? call.ip = some .pushNil) (room : m.stack.size < stackLimit) :
    m.step = (.running,
      { m with frames := [{ call with ip := call.ip + 1 }], stack := m.stack.push .nil }) := by
  refine step_of_ends hm rfl (.bind (.fetch hm hf next ?_))
  unfold execute push
  refine .bind (.get ?_)
  rw [if_pos room]
  exact .modify rfl

/-- The last instruction. -/
theorem step_ret (hm : m.frames = [call]) (hf : m.heap.function? call.function = some f)
    (next : f.chunk.read? call.ip = some .ret) (base : call.base = 0) (pos : 0 < m.stack.size)
    (opens : m.openUpvalues = []) : m.step = (.finished, m.cleared) := by
  refine step_of_ends hm rfl (.bind (.fetch hm hf next (.bind (.pop pos fun v _ => ?_))))
  refine .bind (.frame rfl (.bind (.modify (.bind (.truncate (.bind (.get (.pure ?_))))))))
  simp only [closeUpvalues, opens, closeFrom, base, cleared, List.tail_cons]
  congr 1
  exact Array.eq_empty_of_size_eq_zero (by simp)

/-- The script ends. -/
theorem Spent.steps (h : Spent m) (inv : Invariant m) :
    ∃ frames stack, m.step = (.running, { m with frames, stack }) ∧
      m.step.2.step = (.finished, m.cleared) := by
  obtain ⟨call, f, hm, hf, script, hip⟩ := h
  obtain ⟨base, size, opens⟩ := inv.alone hm hf script hip
  obtain ⟨first, second⟩ := read?_of_isScript script hip
  have pushed := step_pushNil hm hf first (by rw [size]; decide)
  refine ⟨_, _, pushed, ?_⟩
  rw [pushed]
  exact step_ret rfl hf second base (by simp) opens

/-- Two more instructions clear the machine. -/
theorem Spent.run (h : Spent m) (inv : Invariant m) (count : Nat) :
    ∃ frames stack opens, m.run count = (if count < 2 then .running else .finished,
      { m with frames, stack, openUpvalues := opens }) := by
  obtain ⟨frames, stack, first, second⟩ := h.steps inv
  have running : m.step.1 = .running := by rw [first]
  match count with
  | 0 => exact ⟨_, _, _, rfl⟩
  | 1 =>
    rw [run_of_running running, first]
    exact ⟨_, _, _, rfl⟩
  | count + 2 =>
    rw [run_of_running running, run_of_stopped (by rw [second]; simp), second]
    exact ⟨_, _, _, rfl⟩

/-- A run that comes to its end clears the machine. -/
theorem Spent.finish (h : Spent m) (inv : Invariant m) {count : Nat}
    (ended : (m.run count).1 ≠ .running) : m.run count = (.finished, m.cleared) := by
  obtain ⟨frames, stack, first, second⟩ := h.steps inv
  have running : m.step.1 = .running := by rw [first]
  match count with
  | 0 => exact absurd rfl ended
  | 1 =>
    rw [run_of_running running] at ended
    exact absurd rfl ended
  | count + 2 => rw [run_of_running running, run_of_stopped (by rw [second]; simp), second]

end Spent
end Machine
end StackScript
