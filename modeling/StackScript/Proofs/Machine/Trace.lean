import StackScript.Proofs.Bytecode.Sweep
import StackScript.Proofs.Machine.Atomic
import StackScript.Proofs.Machine.Waits

/-!
# StackScript.Proofs.Machine.Trace

The trace of a fault tells where every call stands.

* `ends_fault`: a fault finds the innermost call behind the instruction that fails, on its line.
* `Tells`: a line of a trace tells the name of a call's function and the line of an instruction.
* `Runs.traces`: the trace of a fault has such a line for every call.
* `trace_exact`: the same of a whole run, and of the lines of every compiled function.
-/

namespace StackScript
namespace Machine

open Bytecode
open Instruction (stream width width_append width_cons width_nil)

section Faults

variable {α β : Type} {m : Machine}

theorem Ends.and {x : Exec α} {Q R : α → Machine → Prop} {E F : Stop → Machine → Prop}
    (h : Ends x m Q E) (h' : Ends x m R F) :
    Ends x m (fun a m' => Q a m' ∧ R a m') fun s m' => E s m' ∧ F s m' := by
  unfold Ends at h h' ⊢
  cases hx : x m with
  | ok a m' =>
    rw [hx] at h h'
    exact ⟨h, h'⟩
  | error s m' =>
    rw [hx] at h h'
    exact ⟨h, h'⟩

/-- A computation that is stopped by bad bytecode at most, and not by a fault of the script. -/
def Unfailing (x : Exec α) : Prop :=
  ∀ m, Ends x m (fun _ _ => True) fun s _ => ∀ f, s ≠ .fault f

namespace Unfailing

theorem pure (a : α) : Unfailing (Pure.pure a) := fun _ => trivial

theorem bind {x : Exec α} {f : α → Exec β} (hx : Unfailing x) (hf : ∀ a, Unfailing (f a)) :
    Unfailing (x >>= f) :=
  fun m => .bind ((hx m).imp (fun a m' _ => hf a m') fun _ _ => id)

theorem get : Unfailing (MonadState.get : Exec Machine) := fun _ => trivial

theorem modify (f : Machine → Machine) : Unfailing (modify f : Exec Unit) := fun _ => trivial

theorem malformed (cause : Malformed) : Unfailing (malformed cause : Exec α) := fun _ => nofun

theorem require (o : Option α) (cause : Malformed) : Unfailing (require o cause) := by
  unfold Machine.require
  split
  · exact pure _
  · exact malformed _

theorem frame : Unfailing frame := by
  refine .bind .get fun m => ?_
  split
  · exact .pure _
  · exact .malformed _

theorem peek (distance : Nat) : Unfailing (peek distance) := by
  refine .bind .get fun m => ?_
  dsimp only
  split
  · exact .require _ _
  · exact .malformed _

theorem upvalueRef (i : UInt8) : Unfailing (upvalueRef i) :=
  .bind .frame fun _ => .bind .get fun _ => .require _ _

theorem jumpAhead (d : UInt16) : Unfailing (jumpAhead d) := .bind .frame fun _ => .modify _

end Unfailing

end Faults

section Fault

variable {m : Machine} {call : Frame} {outer : List Frame} {f : Function} {ms : List Mark}

/-- What is read where code goes on is its next instruction. -/
theorem next_of_read? {c : Chunk} {before behind : List Instruction} {i : Instruction}
    (code : c.code.toList = stream (before ++ behind)) (h : c.read? (width before) = some i) :
    ∃ rest, behind = i :: rest := by
  cases behind with
  | nil =>
    have fits := Chunk.read?_fits h
    have size := congrArg List.length code
    have pos := i.size_pos
    rw [Array.length_toList, List.append_nil, Instruction.length_stream] at size
    omega
  | cons j rest =>
    have same := Chunk.read?_of_code (c := c) (i := j) (stream before) (stream rest)
      (by rw [code]; simp)
    rw [Instruction.length_stream, h] at same
    exact ⟨rest, by rw [Option.some.inj same]⟩

/-- Captures are read without a fault, and the line in front of them is that behind them, too. -/
theorem ends_captures_lines (marked : f.chunk.Marked ms) (base n : Nat) :
    ∀ (m : Machine) (call : Frame) (before behind : List Instruction) (refs : Array Ref),
      m.frames = call :: outer → m.heap.function? call.function = some f →
      f.chunk.code.toList = stream (before ++ behind) → call.ip = width before → before ≠ [] →
      Ends (captures base n refs) m
        (fun _ m' => ∃ ip, m'.frames = { call with ip } :: outer ∧
          f.chunk.line? (ip - 1) = f.chunk.line? (call.ip - 1))
        fun s _ => ∀ fault, s ≠ .fault fault := by
  induction n with
  | zero => exact fun _ _ _ _ _ hf _ _ _ _ => .pure ⟨_, hf, rfl⟩
  | succ n ih =>
    intro m call before behind refs hf hr code ip ne
    refine .bind (.frame hf (.bind (.chunk hf hr ?_)))
    split
    next c read =>
      rw [ip] at read
      obtain ⟨rest, rfl⟩ := next_of_read? code read
      have line := marked.line?_capture code ne
      rw [← ip] at line
      -- the rest is read from the next capture on
      have next {m' : Machine} (hf' : m'.frames = call :: outer)
          (hr' : m'.heap.function? call.function = some f) (r : Ref) :
          Ends (do setIp (call.ip + 3); captures base n (refs.push r)) m'
            (fun _ m' => ∃ ip, m'.frames = { call with ip } :: outer ∧
              f.chunk.line? (ip - 1) = f.chunk.line? (call.ip - 1))
            fun s _ => ∀ fault, s ≠ .fault fault := by
        have moved := ih { m' with frames := { call with ip := call.ip + 3 } :: outer }
          { call with ip := call.ip + 3 } (before ++ [.capture c]) rest (refs.push r) rfl hr'
          (by rw [code]; simp) (by rw [width_append, ip]; rfl) (by simp)
        refine .bind (.setIp hf' (moved.imp (fun _ m'' h => ?_) fun _ _ => id))
        obtain ⟨ip', hf'', same⟩ := h
        exact ⟨ip', hf'', same.trans line⟩
      dsimp only
      split
      next =>
        refine .bind (.modifyGet (next ((m.still_captureSlot _).frames.trans hf) ?_ _))
        exact (captureSlot_spec m _).1.function? hr
      next =>
        refine .bind (((Keeps.upvalueRef c.index m rfl :
          Ends _ _ (fun _ m' => m' = m) fun _ m' => m' = m).and
            (Unfailing.upvalueRef c.index m)).imp (fun r m' h => ?_) fun _ _ => And.right)
        obtain ⟨rfl, -⟩ := h
        exact next hf hr r
    next => exact .throw nofun

/-- The end of a call takes more from the stack than it puts there. -/
theorem unfailing_endCall (hf : m.frames = call :: outer) (limit : m.stack.size ≤ stackLimit) :
    Ends endCall m (fun _ _ => True) fun s _ => ∀ fault, s ≠ .fault fault := by
  refine .bind (.bind (.get ?_))
  split
  next v hv =>
    obtain ⟨inside, -⟩ := Array.getElem?_eq_some_iff.1 hv
    have room : (m.stack.pop.shrink call.base).size < stackLimit := by
      rw [Array.size_shrink, Array.size_pop]
      omega
    refine .bind (.modify (.pure (.bind (.frame hf (.bind (.modify (.bind (.truncate
      (.bind (.get ?_))))))))))
    rw [closeUpvalues_eq]
    split
    · trivial
    · exact ends_push room trivial
  next => exact .throw nofun

theorem quiet_still (hosts : m.hosts = #[]) : Quiet (Still m) where
  hosts h := h.hosts.trans hosts
  still h same := h.trans same

/-- A fault leaves the calls alone, unless a closure is made. -/
theorem ends_execute_fault {i : Instruction} (hf : m.frames = call :: outer)
    (hosts : m.hosts = #[]) (limit : m.stack.size ≤ stackLimit) (hi : ∀ j, i ≠ .closure j) :
    Ends (execute i) m (fun _ _ => True) fun s m' =>
      ∀ fault, s = .fault fault → m'.frames = m.frames := by
  have q := quiet_still hosts
  have smooth {y : Exec Unit}
      (h : Ends y m (fun _ _ => True) fun s _ => ∀ fault, s ≠ .fault fault) :
      Ends y m (fun _ _ => True) fun s m' => ∀ fault, s = .fault fault → m'.frames = m.frames :=
    h.imp (fun _ _ => id) fun _ _ none fault e => (none fault e).elim
  have straight (hi : Onwards i) : Ends (execute i) m (fun _ _ => True) fun s m' =>
      ∀ fault, s = .fault fault → m'.frames = m.frames :=
    (q.execute hi m (.refl m)).imp (fun _ _ _ => trivial) fun _ _ h _ _ => h.frames
  cases i with
  | jump d => exact smooth (Unfailing.jumpAhead d m)
  | jumpIfFalse d =>
    refine smooth (Unfailing.bind (.peek 0) (fun v => ?_) m)
    split
    · exact .jumpAhead d
    · exact .pure _
  | loop d =>
    refine smooth (Unfailing.bind .frame (fun call => ?_) m)
    dsimp only
    split
    · exact .modify _
    · exact .malformed _
  | call n =>
    exact (q.ends_startCall (.refl m) n).imp (fun _ _ _ => trivial) fun _ _ h _ _ => h.frames
  | ret => exact smooth (unfailing_endCall hf limit)
  | closure j => exact (hi j rfl).elim
  | _ => exact straight trivial

/-- A fault finds the innermost call behind the instruction that fails, on its line. -/
theorem ends_fault {k : Closure} {c pre post : Layout} {x : Item} {τ ρ : Shape}
    (a : Ahead m call outer k f c pre post x τ ρ) (marked : f.chunk.Marked ms)
    (hosts : m.hosts = #[]) (limit : m.stack.size ≤ stackLimit) :
    Ends instruction m (fun _ _ => True) fun s m' => ∀ fault, s = .fault fault →
      ∃ ip, m'.frames = { call with ip } :: outer ∧
        f.chunk.line? (ip - 1) = f.chunk.line? call.ip := by
  obtain ⟨i, is, hx⟩ : ∃ i is, x.code = i :: is := by cases x <;> exact ⟨_, _, rfl⟩
  have stands := a.active.stands a.layout a.ip hx
  obtain ⟨line, octets⟩ := marked.line?_instruction stands.code
  have size := i.size_pos
  have here : f.chunk.line? (call.ip + i.size - 1) = f.chunk.line? call.ip := by
    have first := octets 0 size
    have last := octets (i.size - 1) (by omega)
    rw [a.ip, Nat.add_sub_assoc size, last, ← first, Nat.add_zero]
  refine .bind (.fetch a.frames a.active.function (a.read? hx) ?_)
  by_cases closure : ∃ j, i = .closure j
  · obtain ⟨j, rfl⟩ := closure
    cases x with
    | plain =>
      cases hx
      obtain ⟨_, _, -, -, -, admits, -⟩ := a.fine
      exact admits.elim
    | closure j captures =>
      cases hx
      obtain ⟨-, r, g, self, pool, hg, -⟩ := a.fine
      have collected := ends_captures_lines marked call.base g.upvalueCount
        { m with frames := { call with ip := call.ip + 2 } :: outer }
        { call with ip := call.ip + 2 }
        (pre.code ++ [.closure j]) (captures.map .capture ++ post.code) #[] rfl a.active.function
        (by rw [stands.code]; simp) (by rw [width_append, ← a.ip]; rfl) (by simp)
      refine .bind (.constant rfl a.active.function pool (.bind (.get ?_)))
      rw [hg]
      refine .bind (.frame rfl (.bind (collected.imp (fun refs m' h => ?_) ?_)))
      · obtain ⟨ip, frames, same⟩ := h
        exact .bind (.allocate (.push trivial fun _ _ => ⟨ip, frames, same.trans here⟩))
      · exact fun _ _ none fault e => (none fault e).elim
  · have kept := ends_execute_fault
      (m := { m with frames := { call with ip := call.ip + i.size } :: outer }) rfl hosts limit
      fun j e => closure ⟨j, e⟩
    exact kept.imp (fun _ _ => id) fun s m' h fault e => ⟨_, h fault e, here⟩

end Fault

/-- A line of a trace tells where a call stands: the line of an instruction of its function, and the
name of the function, if it has one. -/
structure Tells (h : Heap) (call : Frame) (f : Function) (offset : Nat) (i : Instruction)
    (t : TraceLine) : Prop where
  function : h.function? call.function = some f
  instruction : f.chunk.read? offset = some i
  line : f.chunk.line? offset = some t.line
  name : t.function.map some = f.name.map h.string?

section Traces

variable {m : Machine}

/-- Every call has its line, if there is one for its function. -/
theorem forall₂_trace (h : ∀ call ∈ m.frames, ∃ f line, m.heap.function? call.function = some f ∧
    f.chunk.line? (call.ip - 1) = some line) :
    List.Forall₂ (fun call t => ∃ f, m.heap.function? call.function = some f ∧
      f.chunk.line? (call.ip - 1) = some t.line ∧ t.function = f.name.map m.nameText)
      m.frames m.trace := by
  unfold trace
  generalize m.frames = calls at h ⊢
  induction calls with
  | nil => exact .nil
  | cons call calls ih =>
    obtain ⟨⟨f, line, hf, hl⟩, rest⟩ := List.forall_mem_cons.1 h
    rw [List.filterMap_cons]
    simp only [hf, hl, Option.bind_eq_bind, Option.bind_some, Option.pure_def]
    exact .cons ⟨f, hf, hl, rfl⟩ (ih rest)

theorem lined_of_function? {h : Heap} {r : Ref} {f : Function} (lined : h.Lined)
    (hf : h.function? r = some f) : f.Lined h :=
  lined _ f (Heap.function?_eq_some.1 hf)

/-- What was told by a later machine of a call was so before. -/
theorem Tells.of_kept {h : Heap} {call : Frame} (call' : Frame) {f : Function} {offset : Nat}
    {i : Instruction} {t : TraceLine} (lined : f.Lined h) (hb : h.size ≤ UInt32.size)
    (kept : h.Kept m.heap) (hf : h.function? call.function = some f)
    (same : call'.function = call.function) (read : f.chunk.read? offset = some i)
    (line : f.chunk.line? (call'.ip - 1) = f.chunk.line? offset)
    (told : ∃ f, m.heap.function? call'.function = some f ∧
      f.chunk.line? (call'.ip - 1) = some t.line ∧ t.function = f.name.map m.nameText) :
    Tells h call f offset i t := by
  obtain ⟨f', hf', hl, name⟩ := told
  obtain rfl : f = f' := Option.some.inj ((kept.function? hf).symm.trans (same ▸ hf'))
  refine ⟨hf, read, line ▸ hl, ?_⟩
  rw [name]
  cases hr : f.name with
  | none => rfl
  | some r =>
    obtain ⟨text, found⟩ := lined.named hb r hr
    simp [nameText, found, kept.string? found]

/-- A run that has come to an end took one step last. -/
theorem run_last {n : Nat} {p : Progress} {m' : Machine} (h : m.run n = (p, m'))
    (ended : p ≠ .running) :
    ∃ k stopped, k < n ∧ m.run k = (.running, stopped) ∧ stopped.step = (p, m') := by
  induction n generalizing m with
  | zero =>
    cases h
    exact absurd rfl ended
  | succ n ih =>
    by_cases running : m.step.1 = .running
    · rw [run_of_running running] at h
      obtain ⟨k, stopped, lt, before, last⟩ := ih h
      exact ⟨k + 1, stopped, Nat.succ_lt_succ lt, (run_of_running running k).trans before, last⟩
    · rw [run_of_stopped running] at h
      exact ⟨0, m, Nat.succ_pos n, rfl, h⟩

end Traces

section Steps

variable {m m' : Machine} {script : Ref} {fault : Fault} {trace : List TraceLine}

/-- The octets of the call instruction that a call waits for have one line. -/
theorem Waits.line {h : Heap} {call : Frame} {f : Function} {before behind : List Instruction}
    {n : UInt8} (w : Waits h call f before n behind) (lined : f.Lined h) :
    ∃ line, f.chunk.line? (call.ip - 1) = some line ∧ f.chunk.line? (call.ip - 2) = some line := by
  obtain ⟨ms, marked⟩ := lined.marks
  obtain ⟨line, octets⟩ := marked.line?_instruction w.code
  have ip := w.ip
  refine ⟨line, ?_, ?_⟩
  · rw [ip]
    exact octets 1 (Nat.lt_succ_self 1)
  · rw [ip, Nat.add_sub_cancel]
    exact octets 0 (Nat.zero_lt_succ 1)

theorem Waits.read? {h : Heap} {call : Frame} {f : Function} {before behind : List Instruction}
    {n : UInt8} (w : Waits h call f before n behind) :
    f.chunk.read? (call.ip - 2) = some (.call n) := by
  have read := Chunk.read?_of_code (c := f.chunk) (i := .call n) (stream before) (stream behind)
    (by rw [w.code]; simp)
  have ip : call.ip - 2 = width before := by rw [w.ip, Nat.add_sub_cancel]
  rwa [Instruction.length_stream, ← ip] at read

/-- The trace of a fault tells where each call stands: the innermost one at the instruction that
fails, the others at the call instructions that they wait for. -/
theorem Runs.traces (runs : Runs script m) (hb : m.heap.size ≤ UInt32.size)
    (failed : m.step = (.failed (.runtime fault trace), m')) :
    ∃ call outer t ts, m.frames = call :: outer ∧ trace = t :: ts ∧
      (∃ f i, Tells m.heap call f call.ip i t) ∧
      List.Forall₂ (fun waiting t => ∃ f n, Tells m.heap waiting f (waiting.ip - 2) (.call n) t)
        outer ts := by
  obtain ⟨call, outer, hf⟩ := List.exists_cons_of_ne_nil fun idle => by
    rw [step_idle idle] at failed
    cases failed
  obtain ⟨k, f, c, pre, post, x, τ, ρ, a⟩ := runs.invariant.ahead hf
  have lined := lined_of_function? runs.lined a.active.function
  obtain ⟨ms, marked⟩ := lined.marks
  have stopped := (ends_instruction runs.invariant hb hf).and
    (ends_fault a marked runs.limited.hosts runs.limited.stack)
  obtain ⟨m₁, -, e⟩ | ⟨s, m₁, ⟨⟨-, fallen⟩, left⟩, e⟩ := step_cases hf stopped
  · rw [e] at failed
    have none := congrArg Prod.fst failed
    unfold progress at none
    split at none <;> cases none
  · rw [e] at failed
    cases s with
    | fault =>
      cases failed
      obtain ⟨ip, frames, same⟩ := left fault rfl
      obtain ⟨i, is, hx⟩ : ∃ i is, x.code = i :: is := by cases x <;> exact ⟨_, _, rfl⟩
      obtain ⟨line, octets⟩ := marked.line?_instruction (a.active.stands a.layout a.ip hx).code
      have here : f.chunk.line? call.ip = some line := by
        rw [a.ip]
        exact octets 0 i.size_pos
      have waits := runs.waiting.waits
      rw [hf] at waits
      have lines : ∀ call' ∈ m₁.frames, ∃ f line, m₁.heap.function? call'.function = some f ∧
          f.chunk.line? (call'.ip - 1) = some line := by
        rw [frames]
        refine List.forall_mem_cons.2 ⟨?_, fun waiting hw => ?_⟩
        · exact ⟨f, line, fallen.kept.function? a.active.function, same.trans here⟩
        · obtain ⟨g, before, n, behind, w⟩ := waits waiting hw
          obtain ⟨line, last, -⟩ := w.line (lined_of_function? runs.lined w.function)
          exact ⟨g, line, fallen.kept.function? w.function, last⟩
      have told := forall₂_trace lines
      rw [frames] at told
      generalize m₁.trace = trace at told
      obtain _ | ⟨inner, around⟩ := told
      refine ⟨call, outer, _, _, hf, rfl, ⟨f, i, ?_⟩, ?_⟩
      · exact .of_kept { call with ip } lined hb fallen.kept a.active.function rfl (a.read? hx) same
          inner
      · refine ((List.forall₂_and_left _ _).2 ⟨waits, around⟩).imp fun waiting t told => ?_
        obtain ⟨⟨g, before, n, behind, w⟩, told⟩ := told
        have lined := lined_of_function? runs.lined w.function
        obtain ⟨line, last, first⟩ := w.line lined
        exact ⟨g, n, .of_kept waiting lined hb fallen.kept w.function rfl w.read?
          (last.trans first.symm) told⟩
    | _ => cases failed

end Steps

end Machine

namespace Compile

/-- A script has no name. -/
theorem compile_unnamed {source : String} {heap : Heap} {r : Ref}
    (hc : (compile source heap).result = .ok r)
    (hs : (compile source heap).heap.size ≤ UInt32.size) :
    ∃ f, (compile source heap).heap.function? r = some f ∧ f.name = none := by
  obtain ⟨a, f, heap', -, code, allocated⟩ := compile_ok hc
  cases code with
  | @intro c _ is lines code =>
    obtain ⟨g, -, -, -⟩ := Context.script_extends code
    have last : Heap.Extends (c.heap.allocate (.function (c.finish
        (Instruction.stream (is ++ [.pushNil, .ret])) lines))).1 (compile source heap).heap := by
      rw [allocated]
      exact .refl _
    have found := last.function?_allocate hs
    rw [allocated] at found
    exact ⟨_, found, g.draft.name⟩

end Compile

namespace Machine

open Compile (compile)

/-- The script that runs is told without a name. -/
theorem Runs.unnamed {m : Machine} {script : Ref} {f : Function} {trace : List TraceLine}
    (runs : Runs script m) (hf : m.heap.function? script = some f) (unnamed : f.name = none)
    (told : List.Forall₂ (fun call t => ∃ f offset i, Tells m.heap call f offset i t)
      m.frames trace)
    {last : TraceLine} (hl : trace.getLast? = some last) : last.function = none := by
  have ends := forall₂_getLast? told
  rw [hl] at ends
  cases hb : m.frames.getLast? with
  | none =>
    rw [hb] at ends
    cases ends
  | some bottom =>
    rw [hb] at ends
    obtain ⟨g, offset, i, tells⟩ := ends
    have hg := tells.function
    rw [runs.waiting.bottom bottom hb] at hg
    obtain rfl : f = g := Option.some.inj (hf.symm.trans hg)
    have name := tells.name
    rw [unnamed] at name
    exact Option.map_eq_none_iff.1 name

/-- A script that is run by an idle machine and ends in a fault does so in the last step. -/
theorem Reachable.fault {m m' : Machine} {source : String} {n : Nat} {fault : Fault}
    {trace : List TraceLine} (reachable : Reachable m) (idle : m.frames = [])
    (failed : m.interpret n source = (.failed (.runtime fault trace), m'))
    (hb : m'.heap.size ≤ UInt32.size) :
    ∃ script k stopped f, (compile source m.heap).result = .ok script ∧ k < n ∧
      (m.load source).2.run k = (.running, stopped) ∧
      stopped.step = (.failed (.runtime fault trace), m') ∧ stopped.heap.size ≤ UInt32.size ∧
      Runs script stopped ∧ stopped.heap.function? script = some f ∧ f.name = none := by
  have hosts := reachable.hosts
  have fits : (m.load source).2.heap.size ≤ UInt32.size := by
    have le := load_le_interpret hosts source n
    rw [failed] at le
    exact Nat.le_trans le hb
  obtain ⟨errors, he⟩ | ⟨script, ok⟩ := compile_cases source m.heap
  · rw [interpret_error he] at failed
    cases failed
  have small := Nat.le_trans (Larger.load hosts source).size fits
  have quiet := (reachable.invariant small).idle idle
  rw [interpret_ok quiet ok fits] at failed
  obtain ⟨k, stopped, lt, before, last⟩ := run_last failed nofun
  have onward := Larger.run k (Larger.load hosts source).hosts
  rw [before] at onward
  have size : stopped.heap.size ≤ UInt32.size := by
    have le := (Larger.step onward.hosts).size
    rw [last] at le
    exact Nat.le_trans le hb
  have loaded := extends_load quiet ok fits
  obtain ⟨f, hf, unnamed⟩ := Compile.compile_unnamed ok (Nat.le_trans loaded.size_le fits)
  exact ⟨script, k, stopped, f, ok, lt, before, last, size,
    (reachable.runs_load idle ok fits).run before size,
    onward.onward.kept.function? (loaded.function? hf), unnamed⟩

/-- Traces are exact. A script that is run by an idle machine and ends in a fault does so in one
step from a machine whose calls are those of the trace, innermost first. Each line of the trace has
the name of the function of its call, and the line of the instruction that fails, or of the call
instruction that the call waits for. The outermost call is that of the script, which has no name.
What the script finds outside may be different at every look.

Every octet of a function that is compiled has a line, and the lines never decrease. -/
theorem trace_exact :
    (∀ (m m' : Machine) (source : String) (n : Nat) (fault : Fault) (trace : List TraceLine),
      Reachable m → m.frames = [] →
      m.interpret n source = (.failed (.runtime fault trace), m') → m'.heap.size ≤ UInt32.size →
      ∃ script k stopped call outer t ts, (compile source m.heap).result = .ok script ∧
        k < n ∧ (m.load source).2.run k = (.running, stopped) ∧
        stopped.step = (.failed (.runtime fault trace), m') ∧
        stopped.frames = call :: outer ∧ trace = t :: ts ∧
        (∃ f i, Tells stopped.heap call f call.ip i t) ∧
        List.Forall₂ (fun waiting t =>
          ∃ f n, Tells stopped.heap waiting f (waiting.ip - 2) (.call n) t) outer ts ∧
        (∀ bottom, stopped.frames.getLast? = some bottom → bottom.function = script) ∧
        ∀ last, trace.getLast? = some last → last.function = none) ∧
    ∀ (source : String) (heap : Heap) (i : Nat) (f : Function), heap.size ≤ i →
      (compile source heap).heap.objects[i]? = some (.function f) →
        f.chunk.lines.size = f.chunk.code.size ∧ ∀ o o' l l', o ≤ o' →
          f.chunk.line? o = some l → f.chunk.line? o' = some l' → l ≤ l' := by
  constructor
  · intro m m' source n fault trace reachable idle failed hb
    obtain ⟨script, k, stopped, f, ok, lt, before, last, size, runs, hf, unnamed⟩ :=
      reachable.fault idle failed hb
    obtain ⟨call, outer, t, ts, frames, rfl, inner, around⟩ := runs.traces size last
    have told : List.Forall₂ (fun call t => ∃ f offset i, Tells stopped.heap call f offset i t)
        stopped.frames (t :: ts) := by
      obtain ⟨g, i, tells⟩ := inner
      rw [frames]
      exact .cons ⟨g, _, i, tells⟩ (around.imp fun _ _ ⟨g, _, tells⟩ => ⟨g, _, _, tells⟩)
    exact ⟨script, k, stopped, call, outer, t, ts, ok, lt, before, last, frames, rfl, inner,
      around, runs.waiting.bottom, fun _ => runs.unnamed hf unnamed told⟩
  · intro source heap i f new hf
    obtain old | lined := Compile.compile_functions source heap i f hf
    · obtain ⟨inside, -⟩ := Array.getElem?_eq_some_iff.1 old
      exact absurd inside (Nat.not_lt.2 new)
    · obtain ⟨ms, marked⟩ := lined.marks
      exact ⟨marked.full, fun _ _ _ _ => marked.line?_le⟩

/-- Calls and an addition that stand on several lines each. -/
def nested : String :=
  "fun add(x) \x7b\n  return x\n    + nil;\n\x7d\nfun outer() \x7b\n  add(\n    1);\n\x7d\nouter();"

/-- The addition is told on the line of its operator, and the call on that of its parenthesis. -/
theorem trace_exact_nested :
    ∃ m' script k stopped call outer,
      (new .unlimited .still).interpret 40 nested =
        (.failed (.runtime .notAddable [⟨3, some "add"⟩, ⟨7, some "outer"⟩, ⟨9, none⟩]), m') ∧
      m'.heap.size = 28 ∧
      (compile nested (new .unlimited .still).heap).result = .ok script ∧
      ((new .unlimited .still).load nested).2.run k = (.running, stopped) ∧
      stopped.frames = call :: outer ∧
      (∃ f i, Tells stopped.heap call f call.ip i ⟨3, some "add"⟩) ∧
      List.Forall₂ (fun waiting t =>
        ∃ f n, Tells stopped.heap waiting f (waiting.ip - 2) (.call n) t) outer
        [⟨7, some "outer"⟩, ⟨9, none⟩] := by
  have fails : ((new .unlimited .still).interpret 40 nested).1 =
      .failed (.runtime .notAddable [⟨3, some "add"⟩, ⟨7, some "outer"⟩, ⟨9, none⟩]) := by
    decide +kernel
  have size : ((new .unlimited .still).interpret 40 nested).2.heap.size = 28 := by decide +kernel
  obtain ⟨script, k, stopped, call, outer, _, _, ok, -, before, -, frames, told, inner, around,
    -⟩ := trace_exact.1 (new .unlimited .still) _ nested 40 _ _ (.new ..) rfl (Prod.ext fails rfl)
      (by rw [size]; decide)
  cases told
  exact ⟨_, script, k, stopped, call, outer, Prod.ext fails rfl, size, ok, before, frames, inner,
    around⟩

end Machine
end StackScript
