import StackScript.Proofs.Compile.Lines
import StackScript.Proofs.Machine.Evolves
import StackScript.Proofs.Machine.Interpreted
import StackScript.Proofs.Machine.Quiet

/-!
# StackScript.Proofs.Machine.Waits

Where the calls around the innermost one wait, and what is known of their functions.

* `Reachable.lined`: every function on the heap of a reachable machine tells its lines and its name.
* `Waits`: a call waits behind a call instruction of its function.
* `Waiting`: all calls but the innermost one wait, and the outermost one is the call of a script.
* `Runs`: what is known of a machine that runs a script, from loading on (`Reachable.runs_load`)
  through every step (`Runs.step`).
-/

namespace StackScript

theorem Heap.Names.onward {h h' : Heap} {name : Option Ref} (names : h.Names name)
    (o : h.Onward h') : h'.Names name := by
  intro hb r hr
  obtain ⟨text, found⟩ := names (Nat.le_trans o.size_le hb) r hr
  exact ⟨text, o.kept.string? found⟩

theorem Heap.Lined.onward {h h' : Heap} (lined : h.Lined) (o : h.Onward h')
    (limits : h.Limits h') : h'.Lined := fun i f hf =>
  ⟨(lined i f (limits i f hf)).marks, (lined i f (limits i f hf)).named.onward o⟩

namespace Machine

open Instruction (stream width)

section Lined

variable {m : Machine}

theorem limits_define (m : Machine) (name : String) (arity : Nat) (p : Procedure) :
    m.heap.Limits (m.define name arity p).heap := by
  have allocated := (m.heap.intern name).1.limits_allocate (o := .native ⟨name, arity, p⟩) (by simp)
  exact (m.heap.limits_intern name).trans allocated

theorem lined_new (output : Output) (world : World) : (new output world).heap.Lined := by
  have fold (bs : List Builtin) (m : Machine) : m.heap.Limits
      (bs.foldl (fun m b => m.define b.name b.arity (.builtin b)) m).heap := by
    induction bs generalizing m with
    | nil => exact .refl m.heap
    | cons b bs ih => exact (limits_define m _ _ _).trans (ih _)
  have none : Heap.empty.Limits (new output world).heap := by
    unfold Machine.new
    exact fold Builtin.all _
  exact fun i f hf => by cases none i f hf

theorem limits_run (n : Nat) (hosts : m.hosts = #[]) : m.heap.Limits (m.run n).2.heap :=
  ((Quiet.functions m.heap).run (fun _ _ => id) n ⟨hosts, .refl m.heap⟩).2

theorem limits_enter (hosts : m.hosts = #[]) (r : Ref) : Ends (enter r) m
    (fun _ m' => m.heap.Limits m'.heap) fun _ m' => m.heap.Limits m'.heap :=
  ((Quiet.functions m.heap).enter (fun _ _ => id) r m ⟨hosts, .refl m.heap⟩).imp
    (fun _ _ => And.right) fun _ _ => And.right

theorem lined_load (lined : m.heap.Lined) (hosts : m.hosts = #[]) (source : String) :
    (m.load source).2.heap.Lined := by
  have compiled := lined.compile source
  rw [load_eq]
  split
  next => exact compiled
  next r _ =>
    have larger := larger_enter (m := { m with heap := (Compile.compile source m.heap).heap })
      hosts r
    have limits := limits_enter (m := { m with heap := (Compile.compile source m.heap).heap })
      hosts r
    have allocated : (Compile.compile source m.heap).heap.Onward
        ((Compile.compile source m.heap).heap.allocate (.closure ⟨r, #[]⟩)).1 :=
      .allocate nofun nofun .refl
    unfold Ends at larger limits
    simp only [EStateM.run]
    split
    next hx =>
      rw [hx] at larger limits
      exact compiled.onward (allocated.trans larger.onward) limits
    next hx =>
      rw [hx] at larger limits
      exact compiled.onward (allocated.trans larger.onward) limits

theorem lined_run (lined : m.heap.Lined) (hosts : m.hosts = #[]) (n : Nat) :
    (m.run n).2.heap.Lined :=
  lined.onward (Larger.run n hosts).onward (limits_run n hosts)

theorem Reachable.lined (h : Reachable m) : m.heap.Lined := by
  induction h with
  | new output world => exact lined_new output world
  | outside _ _ ih => exact ih
  | load source h _ ih => exact lined_load ih h.hosts source
  | step h _ ih => exact ih.onward (Larger.step h.hosts).onward (limits_step h.hosts)
  | run n h _ ih => exact lined_run ih h.hosts n
  | @interpret m n source h _ _ ih =>
    have loaded := lined_load ih h.hosts source
    obtain e | ⟨_, e⟩ := m.interpret_cases n source
    · rw [e]
      exact lined_run loaded (Larger.load h.hosts source).hosts n
    · rw [e]
      exact loaded

end Lined

/-- A call waits behind a call instruction of its function. -/
structure Waits (h : Heap) (call : Frame) (f : Function) (before : List Instruction) (n : UInt8)
    (behind : List Instruction) : Prop where
  function : h.function? call.function = some f
  code : f.chunk.code.toList = stream (before ++ .call n :: behind)
  ip : call.ip = width before + 2

/-- All calls but the innermost one wait. The outermost one is the call of a script. -/
structure Waiting (script : Ref) (m : Machine) : Prop where
  waits : ∀ call ∈ m.frames.tail, ∃ f before n behind, Waits m.heap call f before n behind
  bottom : ∀ call, m.frames.getLast? = some call → call.function = script

section Waiting

variable {m : Machine} {script : Ref}

theorem Waits.kept {h h' : Heap} {call : Frame} {f : Function} {before behind : List Instruction}
    {n : UInt8} (w : Waits h call f before n behind) (kept : h.Kept h') :
    Waits h' call f before n behind :=
  ⟨kept.function? w.function, w.code, w.ip⟩

/-- A call that calls waits from then on. -/
theorem Invariant.waits (inv : Invariant m) {call : Frame} {n : UInt8}
    (next : m.next? = some (call, .call n)) : ∃ f before behind,
      Waits m.heap { call with ip := call.ip + 2 } f before n behind := by
  obtain ⟨outer, k, f, c, pre, post, x, τ, ρ, is, a, hx⟩ := inv.aheadOf next
  have stands := a.active.stands a.layout a.ip hx
  exact ⟨f, pre.code, is ++ post.code, stands.function, stands.code, by rw [← a.ip]⟩

theorem Waiting.step (waiting : Waiting script m) (inv : Invariant m)
    (hb : m.heap.size ≤ UInt32.size) (running : m.step.1 = .running) :
    Waiting script m.step.2 := by
  have kept := (inv.step hb).kept
  obtain ⟨call, outer, hf⟩ := List.exists_cons_of_ne_nil fun idle => by
    rw [step_idle idle] at running
    cases running
  obtain ⟨k, f, c, pre, post, x, τ, ρ, a⟩ := inv.ahead hf
  have around : ∀ call ∈ outer, ∃ f before n behind,
      Waits m.step.2.heap call f before n behind := by
    intro call hc
    obtain ⟨f, before, n, behind, w⟩ := waiting.waits call (by rwa [hf])
    exact ⟨f, before, n, behind, w.kept kept⟩
  have bottom (ip : Nat) :
      ∀ last, ({ call with ip } :: outer).getLast? = some last → last.function = script := by
    intro last hl
    have bottom := waiting.bottom
    rw [hf] at bottom
    cases outer with
    | nil =>
      cases hl
      exact bottom call rfl
    | cons => exact bottom last (by simpa using hl)
  cases a.moves running with
  | onward ip frames _ =>
    refine ⟨by rwa [frames], fun last hl => bottom ip last (by rwa [frames] at hl)⟩
  | called n r function next _ _ _ _ frames =>
    refine ⟨?_, fun last hl => bottom (call.ip + 2) last (by simpa [frames] using hl)⟩
    rw [frames]
    refine List.forall_mem_cons.2 ⟨?_, around⟩
    obtain ⟨f, before, behind, w⟩ := inv.waits next
    exact ⟨f, before, n, behind, w.kept kept⟩
  | returned v next _ frames _ _ =>
    refine ⟨?_, fun last hl => ?_⟩
    · rw [frames]
      exact fun call hc => around call (List.mem_of_mem_tail hc)
    · rw [frames] at hl
      cases outer with
      | nil => cases hl
      | cons => exact bottom call.ip last (by simpa using hl)

end Waiting

/-- What is known of a machine that runs a script. -/
structure Runs (script : Ref) (m : Machine) : Prop where
  invariant : Invariant m
  waiting : Waiting script m
  limited : Limited m
  lined : m.heap.Lined

section Runs

variable {m m' : Machine} {script : Ref}

theorem Runs.step (runs : Runs script m) (hb : m.step.2.heap.size ≤ UInt32.size)
    (running : m.step.1 = .running) : Runs script m.step.2 := by
  have hosts := runs.limited.hosts
  have size := Nat.le_trans (Larger.step hosts).size hb
  have stays : m.step.1.Stays := fun code e => by
    rw [running] at e
    cases e
  exact ⟨(runs.invariant.step size).invariant hb stays,
    runs.waiting.step runs.invariant size running, runs.limited.step,
    runs.lined.onward (Larger.step hosts).onward (limits_step hosts)⟩

theorem Runs.run {k : Nat} (runs : Runs script m) (h : m.run k = (.running, m'))
    (hb : m'.heap.size ≤ UInt32.size) : Runs script m' := by
  induction k generalizing m with
  | zero =>
    obtain rfl : m = m' := (Prod.mk.inj h).2
    exact runs
  | succ k ih =>
    by_cases running : m.step.1 = .running
    · rw [run_of_running running] at h
      have larger := (Larger.run k (Larger.step runs.limited.hosts).hosts).size
      rw [h] at larger
      exact ih (runs.step (Nat.le_trans larger hb) running) h
    · rw [run_of_stopped running] at h
      exact absurd (congrArg Prod.fst h) running

/-- A script that is loaded by an idle machine is about to run. -/
theorem Reachable.runs_load (h : Reachable m) (idle : m.frames = []) {source : String}
    (ok : (Compile.compile source m.heap).result = .ok script)
    (hb : (m.load source).2.heap.size ≤ UInt32.size) : Runs script (m.load source).2 := by
  have inv := h.invariant (Nat.le_trans (Larger.load h.hosts source).size hb)
  have loaded := inv.load idle source hb
  have lined := lined_load h.lined h.hosts source
  rw [load_ok (inv.idle idle) ok hb] at loaded lined ⊢
  refine ⟨loaded, ⟨nofun, fun call hc => ?_⟩, ⟨loaded.hosts, ?_⟩, lined⟩
  · cases hc
    rfl
  · rw [size_stack_calling]
    decide

end Runs

end Machine
end StackScript
