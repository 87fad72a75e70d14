import StackScript.Proofs.Machine.Globals
import StackScript.Proofs.Machine.Interpreted
import StackScript.Proofs.Semantics.Call

/-!
# StackScript.Proofs.Semantics.Script

A new machine that runs a script does what the tree of the script means.

* `Stocked`: the natives that a machine has as global variables; a new one has them all.
* `Begins`: a machine at the beginning of a script. Loading leads there (`begins_load`).
* `Concludes`: how a run ends, given how the script has ended.
* `Begins.follows`: from there the machine follows the script.
-/

namespace StackScript

open Instruction (width stream)

/-- Compiling leaves arrays and natives alone. -/
theorem Heap.Gains.calm {h h' : Heap} (g : h.Gains h') : h.Calm h' := by
  induction g with
  | refl => exact .refl _
  | string text _ ih => exact ih.trans (.intern _ text)
  | function f _ ih => exact ih.trans (.allocate _ (by simp) (by simp))

namespace Semantics

open Compile (Context StmtCode ScriptCode compile)
open Machine
open Syntax (Stmt Parses)

section New

/-- The natives that a machine has, which are its global variables. -/
structure Stocked (bs : List Builtin) (m : Machine) (g : Globals) : Prop where
  listed : ∀ name, Option.Rel (Same .empty m.heap) ((bs.find? (·.name == name)).map .native)
    (g.lookup name)
  named : ∀ r n, m.heap.native? r = some n → n.name ∈ bs.map Builtin.name
  unshared : Unshared m.heap

variable {m : Machine} {g : Globals} {bs done : List Builtin}

theorem extends_define (m : Machine) (b : Builtin) :
    m.heap.Extends (m.define b.name b.arity (.builtin b)).heap :=
  (m.heap.extends_intern b.name).trans (Heap.extends_allocate _ _)

theorem native?_define_cases {b : Builtin} {r : Ref} {n : Native}
    (hr : (m.define b.name b.arity (.builtin b)).heap.native? r = some n) :
    m.heap.native? r = some n ∨ (n = ⟨b.name, b.arity, .builtin b⟩ ∧
      r.index = (m.heap.intern b.name).1.size) := by
  obtain old | ⟨e, index⟩ := Heap.get?_allocate_cases (Heap.native?_eq_some.1 hr)
  · obtain old | e := Heap.get?_intern_cases old
    · exact .inl (Heap.native?_eq_some.2 old)
    · cases e
  · exact .inr ⟨by cases e; rfl, index⟩

theorem Stocked.define (s : Stocked bs m g) {b : Builtin} (new : b.name ∉ bs.map Builtin.name)
    (fits : (m.define b.name b.arity (.builtin b)).heap.size ≤ UInt32.size) :
    Stocked (bs ++ [b]) (m.define b.name b.arity (.builtin b))
      (g.insert b.name (.object (m.nativeRef b.name))) where
  listed name := by
    rw [List.find?_append]
    by_cases e : name = b.name
    · subst e
      have absent : bs.find? (·.name == b.name) = none :=
        List.find?_eq_none.2 fun x hx e => new (List.mem_map.2 ⟨x, hx, by simpa using e⟩)
      rw [absent, Finmap.lookup_insert]
      simpa using Option.Rel.some (Same.native (native?_define m b.name b.arity (.builtin b) fits))
    · have other : [b].find? (·.name == name) = none := by simpa using Ne.symm e
      rw [other, Option.or_none, Finmap.lookup_insert_of_ne _ e]
      exact Same.later_rel (s.listed name) ⟨.refl _, (extends_define m b).kept⟩
  named r n hr := by
    rw [List.map_append]
    obtain old | ⟨rfl, -⟩ := native?_define_cases hr
    · exact List.mem_append_left _ (s.named r n old)
    · simp
  unshared r r' n hr hr' := by
    obtain old | ⟨rfl, e⟩ := native?_define_cases hr
    · obtain old' | ⟨rfl, -⟩ := native?_define_cases hr'
      · exact s.unshared r r' n old old'
      · exact (new (s.named r _ old)).elim
    · obtain old' | ⟨-, e'⟩ := native?_define_cases hr'
      · exact (new (s.named r' _ old')).elim
      · exact Ref.index_inj (e.trans e'.symm)

/-- Natives become global variables one after the other. -/
theorem Stocked.builtins (s : Stocked done m g) (once : ((done ++ bs).map Builtin.name).Nodup)
    (fits : (bs.foldl (fun m b => m.define b.name b.arity (.builtin b)) m).heap.size ≤
      UInt32.size) :
    Stocked (done ++ bs) (bs.foldl (fun m b => m.define b.name b.arity (.builtin b)) m)
      (Machine.builtins m bs g) := by
  have grows (bs : List Builtin) (m : Machine) : m.heap.size ≤
      (bs.foldl (fun m b => m.define b.name b.arity (.builtin b)) m).heap.size := by
    induction bs generalizing m with
    | nil => exact Nat.le_refl _
    | cons b bs ih => exact Nat.le_trans (extends_define m b).size_le (ih _)
  induction bs generalizing done m g with
  | nil => rwa [List.append_nil]
  | cons b bs ih =>
    rw [List.append_cons] at once ⊢
    refine ih (s.define (fun hb => ?_) (Nat.le_trans (grows bs _) fits)) once fits
    rw [List.map_append, List.map_append] at once
    exact (List.nodup_append.1 (List.nodup_append.1 once).1).2.2 _ hb _ (by simp) rfl

/-- A new machine has the globals that a script starts from. -/
theorem backed_new (output : Output) (world : World)
    (fits : (Machine.new output world).heap.size ≤ UInt32.size) :
    Backed (Machine.new output world).heap .empty (Store.initial output world)
      (Machine.new output world).globals (Machine.new output world).heap := by
  have bare : Stocked [] (Machine.bare output world) ∅ :=
    ⟨fun _ => .none, nofun, nofun⟩
  have stocked := bare.builtins (by decide : (([] ++ Builtin.all).map Builtin.name).Nodup) fits
  have keyed := (History.new output world).keyed
  obtain ⟨d, directory⟩ := keyed.directory fits
  exact ⟨⟨.nil, .nil, .nil, .nil⟩, ⟨keyed.sound fits, d, _, directory, stocked.listed⟩,
    stocked.unshared, .refl _⟩

/-- Defining natives leaves the rest of a machine alone. -/
theorem foldl_define {α : Type} (part : Machine → α)
    (same : ∀ m b, part (m.define b.name b.arity (.builtin b)) = part m) :
    part (bs.foldl (fun m b => m.define b.name b.arity (.builtin b)) m) = part m := by
  induction bs generalizing m with
  | nil => rfl
  | cons b bs ih => exact ih.trans (same m b)

theorem output_new (output : Output) (world : World) :
    (Machine.new output world).output = output := foldl_define _ fun _ _ => rfl

theorem world_new (output : Output) (world : World) :
    (Machine.new output world).world = world := foldl_define _ fun _ _ => rfl

end New

section Begin

/-- A machine at the beginning of a script with a tree. -/
structure Begins (A : Activation) (a : Stmt) (s : Store) (m : Machine) (H : Heap) (c c' : Context)
    (is : List Instruction) : Prop where
  outer : A.outer = []
  site : A.site false [] [] = .script
  code : A.code = is ++ [.pushNil, .ret]
  body : StmtCode c a is c'
  named : a.Named
  plain : a.Plain
  placed : Placed A false [] c
  settled : c.draft.Settled
  before : c'.Before A.chain A.body.chunk.constants H
  small : H.size ≤ UInt32.size
  stands : Stands H A s 0 [] [] m

variable {output : Output} {world : World} {source : String} {r : Ref} {a : Stmt}

/-- The call of a script, given its closure, its function and its code. -/
def Activation.script (closure function : Ref) (body : Function) (code : List Instruction)
    (heap : Heap) (isClosure : heap.closure? closure = some ⟨function, #[]⟩)
    (isFunction : heap.function? function = some body)
    (encoded : body.chunk.code.toList = stream code) (unnamed : body.name = none) : Activation where
  below := []
  closure := closure
  function := function
  outer := []
  upvalues := #[]
  body := body
  code := code
  chain := [#[]]
  levels := []
  calls := [none]
  ties := .empty
  heap := heap
  isClosure := isClosure
  isFunction := isFunction
  encoded := encoded
  backs := ⟨fun captures hc => by cases hc; rfl, fun _ _ _ _ _ hc => by simp [Levels.cell?] at hc⟩
  named := .cons ⟨body, isFunction, by rw [unnamed]; rfl⟩ .nil

theorem outside_calling (m : Machine) (heap : Heap) (r : Ref) :
    (m.calling heap r).output = m.output ∧ (m.calling heap r).world = m.world := ⟨rfl, rfl⟩

theorem begins_load (ok : (compile source (Machine.new output world).heap).result = .ok r)
    (parses : Parses source a)
    (fits : ∀ n, ((Machine.new output world).interpret n source).2.heap.size ≤ UInt32.size) :
    ∃ A H c c' is, Begins A a (Store.initial output world)
      ((Machine.new output world).load source).2 H c c' is := by
  have reachable := Reachable.new output world
  have holds := holds_new output world
  have output_eq := output_new output world
  have world_eq := world_new output world
  generalize hm : Machine.new output world = m at ok fits reachable holds output_eq world_eq
  have loaded : (m.load source).2.heap.size ≤ UInt32.size :=
    Nat.le_trans (load_le_interpret holds.hosts source 0) (fits 0)
  have before : m.heap.size ≤ UInt32.size := Nat.le_trans (Larger.load holds.hosts source).size loaded
  have idle := (holds.invariant before).idle holds.frames
  have runs := reachable.runs_load idle.frames ok loaded
  have live : Live (m.load source).2 := by
    refine ⟨⟨r, runs⟩, fun n => ?_⟩
    have fits := fits n
    rwa [interpret_ok idle ok loaded] at fits
  have small : (compile source m.heap).heap.size ≤ UInt32.size :=
    Nat.le_trans (size_compiled idle.hosts ok) loaded
  have backed := backed_new output world (hm ▸ before)
  have e : (m.load source).2 = m.calling (compile source m.heap).heap r := by
    rw [load_ok idle ok loaded]
  rw [hm] at backed
  rw [e] at live loaded runs ⊢
  have calm := (Compile.compile_gains source m.heap).calm
  obtain ⟨a', f, heap, parses', code, allocated⟩ := Compile.compile_ok ok
  obtain rfl := Compile.Parses.unique parses parses'
  have last : Heap.Extends (heap.allocate (.function f)).1 (compile source m.heap).heap := by
    rw [allocated]
    exact .refl _
  have found := last.function?_allocate small
  rw [allocated] at found
  have called : ((compile source m.heap).heap).Extends (m.calling (compile source m.heap).heap r).heap :=
    extends_calling m _ r
  cases code with
  | @intro c _ is lines code _ =>
    obtain ⟨g, -, outer, captures⟩ := Context.script_extends code
    let A := Activation.script _ r _ (is ++ [.pushNil, .ret]) _
      (closure?_calling loaded) (called.function? found) (by simp [Context.finish]) g.draft.name
    refine ⟨A, (compile source m.heap).heap, Context.script m.heap, c, is, rfl, rfl, rfl, code,
      parses.named, parses.plain, ⟨Context.script_proper _, Context.script_rooted _,
        Context.script_plain _, rfl⟩, Context.script_settled _, ⟨?_, .refl _, ?_⟩, small, live,
      .empty, rfl, .refl _ _, ?_⟩
    · rw [Context.chain, outer, List.map_cons, captures]
      exact .cons (.refl _) .nil
    · exact (Heap.extends_allocate _ _).trans last
    · obtain ⟨σ, -, -, tracked⟩ := live.invariant.stacked
      have closed (x : Ref) (i : Nat) :
          (m.calling (compile source m.heap).heap r).heap.upvalue? x ≠ some (.opened i) := fun hx => by
        have listed := (tracked.opened x).2 ⟨i, hx⟩
        rw [show (m.calling (compile source m.heap).heap r).openUpvalues = [] from idle.opens] at listed
        cases listed
      have calm' : m.heap.Calm (m.calling (compile source m.heap).heap r).heap :=
        calm.trans (.allocate (compile source m.heap).heap (o := .closure ⟨r, #[]⟩)
          (fun _ e => (by cases e)) fun _ e => (by cases e))
      have all := backed.calm calm' (.refl _) rfl rfl loaded
      have stored : Stored (compile source m.heap).heap .empty (Store.initial output world).arrays
        (Store.initial output world).closures (m.calling (compile source m.heap).heap r).heap :=
        ⟨.nil, .nil, .nil, .nil⟩
      have celled : Celled .empty #[] [.callee] (m.calling (compile source m.heap).heap r).stack
          (m.calling (compile source m.heap).heap r).heap :=
        ⟨.cons trivial .nil, .nil, fun _ _ h => (by cases h), fun x i hx => (closed x i hx).elim,
          fun _ _ _ h => (by cases h)⟩
      exact ⟨celled, ⟨stored, all.listed, all.unshared, called.kept⟩,
        (outside_calling m _ r).1.trans output_eq, (outside_calling m _ r).2.trans world_eq⟩

end Begin

section Conclude

variable {H : Heap} {A : Activation} {a : Stmt} {s : Store} {m : Machine} {c c' : Context}
  {is : List Instruction} {v : Val}

/-- How a run ends, given how the script has ended. -/
def Concludes : Except Halt Unit → Progress → Prop
  | .ok _, p => p = .finished
  | .error halt, p => halt.Tells p

theorem Concludes.stopped {r : Except Halt Unit} {p : Progress} (h : Concludes r p) :
    p ≠ .running := by
  rintro rfl
  cases r with
  | ok => cases h
  | error halt =>
    cases halt with
    | fault | full =>
      obtain ⟨_, e, -⟩ := h
      cases e
    | output | exit => cases h

/-- The outermost call ends, and the run with it. -/
theorem Returns.finishes (outer : A.outer = []) (h : Returns H A v s m) :
    ∃ m', m.step = (.finished, m') ∧ m'.output = s.output := by
  obtain ⟨ip, ℓ, st, code⟩ := h
  obtain ⟨pre, post, code, at_⟩ := code.at_
  obtain ⟨τ, r⟩ := st.rests
  have ends : Ends (execute .ret) { m with frames := A.frame (ip + Instruction.ret.size) :: A.outer }
      (fun _ m' => m'.frames = [] ∧ m'.output = s.output) fun _ _ => False := by
    have r := st.fetched r (ip + Instruction.ret.size)
    generalize ({ m with frames := A.frame (ip + Instruction.ret.size) :: A.outer } : Machine) = m₁
      at r
    obtain ⟨stack, w, hw, -, -⟩ := Rests.pop (θ := []) r.toRests
    have frames : m₁.frames.tail = [] := by
      rw [r.frames]
      exact outer
    refine .bind (ends_pop_push hw (.bind (.frame r.frames (.bind (.modify (.bind (.truncate
      (.bind (.get ?_)))))))))
    show Ends (unless m₁.frames.tail.isEmpty do push w) _ _ _
    rw [frames]
    exact .pure ⟨rfl, r.agrees.output⟩
  obtain ⟨m', ⟨frames, output⟩, e⟩ | ⟨_, _, none, -⟩ :=
    step_cases r.frames (ends_instruction_at r code at_ ends)
  · rw [progress, frames] at e
    exact ⟨m', e, output⟩
  · exact none.elim

/-- How a script ends that a machine runs: it runs on for as long as the evaluation takes too long. -/
def Finishes (n : Nat) (r : Option (Except Halt Unit × Store)) (m : Machine) : Prop :=
  match r with
  | none => (m.run n).1 = .running
  | some (r, s) => ∃ k p m', m.run k = (p, m') ∧ Concludes r p ∧ m'.output = s.output

/-- The machine ends as the script does. -/
theorem Begins.follows (b : Begins A a s m H c c' is) (n : Nat) :
    Finishes n (script machineLimits n a s) m := by
  have body := StmtCode.follows (calling_invoke b.small n) b.small b.body b.placed b.settled b.named
    b.plain b.before ⟨[], [.pushNil, .ret], b.code, rfl⟩ b.stands
  rw [show width [] + width is = width is from Nat.zero_add _, b.site] at body
  have ends := body.bind (f := fun flow => do let _ ← flow.result machineLimits)
    (R := fun _ s m => ∃ v, Returns H A v s m) fun flow s' m' flows =>
      (flows.result b.code).bind fun v s m returns => .pure ⟨v, returns⟩
  generalize hr : script machineLimits n a s = r
  rw [show (stmt machineLimits (invoke machineLimits n) n .script a >>= fun flow => do
    let _ ← flow.result machineLimits) s = r from hr] at ends
  cases r with
  | none => exact ends
  | some x =>
    obtain ⟨r, s'⟩ := x
    cases r with
    | ok u =>
      obtain ⟨k, m', run, v, returns⟩ := ends
      obtain ⟨m'', step, output⟩ := returns.finishes b.outer
      refine ⟨k + 1, _, _, (run_add run 1).trans ?_, rfl, output⟩
      rw [run_of_stopped (by rw [step]; nofun), step]
    | error halt =>
      obtain ⟨k, m', run, e⟩ := ends
      have stopped : m'.step.1 ≠ .running := Concludes.stopped (r := .error halt) e.tells
      exact ⟨k + 1, _, _, (run_add run 1).trans (run_of_stopped stopped 0), e.tells, e.output⟩

/-- A run ends once. -/
theorem run_unique {j k : Nat} (h : (m.run j).1 ≠ .running) (h' : (m.run k).1 ≠ .running) :
    m.run j = m.run k := by
  induction j generalizing m k with
  | zero => exact absurd rfl h
  | succ j ih =>
    cases k with
    | zero => exact absurd rfl h'
    | succ k =>
      by_cases running : m.step.1 = .running
      · rw [run_of_running running] at h ⊢
        rw [run_of_running running] at h' ⊢
        exact ih h h'
      · rw [run_of_stopped running, run_of_stopped running]

end Conclude

section Interpret

variable {output : Output} {world : World} {source : String} {r : Ref} {a : Stmt} {n : Nat}
  {p : Progress} {m : Machine}

/-- A source that a new machine runs, without running out of handles. -/
structure Sourced (output : Output) (world : World) (source : String) (a : Stmt) : Prop where
  parses : Parses source a
  compiles : ∃ r, (compile source (Machine.new output world).heap).result = .ok r
  fits : ∀ n, ((Machine.new output world).interpret n source).2.heap.size ≤ UInt32.size

theorem Sourced.finishes (h : Sourced output world source a) (n : Nat) :
    ∃ m, (∀ k, (Machine.new output world).interpret k source = m.run k) ∧
      Finishes n (script machineLimits n a (Store.initial output world)) m := by
  obtain ⟨r, ok⟩ := h.compiles
  obtain ⟨A, H, c, c', is, begins⟩ := begins_load ok h.parses h.fits
  have holds := holds_new output world
  have loaded := Nat.le_trans (load_le_interpret holds.hosts source 0) (h.fits 0)
  have before := Nat.le_trans (Larger.load holds.hosts source).size loaded
  have idle := (holds.invariant before).idle holds.frames
  exact ⟨_, interpret_ok idle ok loaded, begins.follows n⟩

/-- If the run ends, then the script does. -/
theorem Sourced.script (h : Sourced output world source a)
    (run : (Machine.new output world).interpret n source = (p, m)) (ended : p ≠ .running) :
    ∃ r s, Semantics.script machineLimits n a (Store.initial output world) = some (r, s) ∧
      Concludes r p ∧ m.output = s.output := by
  obtain ⟨m₀, interprets, finishes⟩ := h.finishes n
  rw [interprets] at run
  generalize Semantics.script machineLimits n a (Store.initial output world) = x at finishes
  cases x with
  | none => exact absurd ((congrArg Prod.fst run).symm.trans finishes) ended
  | some x =>
    obtain ⟨r, s⟩ := x
    obtain ⟨k, p', m', run', concludes, output⟩ := finishes
    have e := run_unique (j := n) (k := k) (by rw [run]; exact ended)
      (by rw [run']; exact concludes.stopped)
    rw [run, run'] at e
    cases e
    exact ⟨r, s, rfl, concludes, output⟩

/-- If the script ends, then the run does. -/
theorem Sourced.interpret (h : Sourced output world source a) {r : Except Halt Unit} {s : Store}
    (ends : Semantics.script machineLimits n a (Store.initial output world) = some (r, s)) :
    ∃ k p m, (Machine.new output world).interpret k source = (p, m) ∧ Concludes r p ∧
      m.output = s.output := by
  obtain ⟨m₀, interprets, finishes⟩ := h.finishes n
  rw [ends] at finishes
  obtain ⟨k, p, m, run, done⟩ := finishes
  exact ⟨k, p, m, (interprets k).trans run, done⟩

end Interpret

end Semantics
end StackScript
