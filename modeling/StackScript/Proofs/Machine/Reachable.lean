import StackScript.Proofs.Compile.Shape
import StackScript.Proofs.Machine.Grows
import StackScript.Proofs.Machine.Invariant

/-!
# StackScript.Proofs.Machine.Reachable

Machines that only run what was compiled for them.

* `Reachable`: a new machine, and every machine that comes from it by loading, stepping and running
  scripts. A script is loaded only when no call is active.
* `Reachable.invariant`: the invariant holds of them all.
-/

namespace StackScript
namespace Machine

open Bytecode
open Bytecode.Shape (temporaries Below)

/-- Machines without functions of the host, up to the end of the program. -/
inductive Reachable : Machine → Prop where
  | new (output : Output) (world : World) : Reachable (.new output world)
  /-- The world outside may change between two steps. -/
  | outside {m : Machine} (world : World) : Reachable m → Reachable { m with world }
  | load {m : Machine} (source : String) : Reachable m → m.frames = [] →
      Reachable (m.load source).2
  | step {m : Machine} : Reachable m → m.step.1.Stays → Reachable m.step.2
  | run {m : Machine} (n : Nat) : Reachable m → (m.run n).1.Stays → Reachable (m.run n).2
  | interpret {m : Machine} (n : Nat) (source : String) : Reachable m → m.frames = [] →
      (m.interpret n source).1.Stays → Reachable (m.interpret n source).2

section New

variable {h₀ : Heap} {W : Ref → Value → Prop} {fs : List Frame} {σ : Shape} {m : Machine}

theorem Holds.define (h : Holds h₀ W fs σ m) (name : String) (arity : Nat) (p : Procedure) :
    Holds h₀ W fs σ (m.define name arity p) := by
  have named := (h.intern name).allocate (o := .native ⟨name, arity, p⟩) (by simp) (by simp)
  exact named.globals _

theorem holds_new (output : Output) (world : World) :
    Holds .empty (fun _ _ => False) [] [] (.new output world) := by
  have fold (bs : List Builtin) (m : Machine) (h : Holds .empty (fun _ _ => False) [] [] m) :
      Holds .empty (fun _ _ => False) [] []
        (bs.foldl (fun m b => m.define b.name b.arity (.builtin b)) m) := by
    induction bs generalizing m with
    | nil => exact h
    | cons b bs ih => exact ih _ (h.define _ _ _)
  unfold Machine.new
  refine fold Builtin.all _ ?_
  refine ⟨rfl, rfl, rfl, .refl _, Nat.le_refl _, fun _ r k hk => ?_,
    fun _ => ⟨fun r => ⟨fun hm => ?_, fun ⟨slot, hu⟩ => ?_⟩, .nil, fun r slot hu => ?_⟩,
    fun _ _ _ => False.elim⟩
  · cases hk
  · cases hm
  · cases hu
  · cases hu

theorem Holds.invariant (h : Holds h₀ W [] [] m) (hb : m.heap.size ≤ UInt32.size) : Invariant m :=
  ⟨h.hosts, h.closures hb, [], h.size, h.frames.symm ▸ .idle, h.tracked hb⟩

end New

section Load

variable {h₀ : Heap} {W : Ref → Value → Prop} {fs : List Frame} {σ : Shape} {m : Machine}

/-- What compiling leaves on the heap does no harm. -/
theorem Holds.gains {h' : Heap} (h : Holds h₀ W fs σ m) (gains : m.heap.Gains h') :
    Holds h₀ W fs σ { m with heap := h' } := by
  generalize hh : m.heap = heap at gains
  induction gains with
  | refl => exact hh ▸ h
  | string text _ ih => exact ih.intern text
  | function f _ ih => exact ih.allocate (by simp) (by simp)

theorem load_eq (m : Machine) (source : String) : m.load source =
    match (Compile.compile source m.heap).result with
    | .error errors => (.error (.compile errors),
        { m with heap := (Compile.compile source m.heap).heap })
    | .ok function =>
      match (enter function).run { m with heap := (Compile.compile source m.heap).heap } with
      | .ok _ m => (.ok (), m)
      | .error stop m => (.error stop.error, m) := rfl

theorem larger_enter (h : m.hosts = #[]) (r : Ref) : Ends (enter r) m
    (fun _ => Larger { m with heap := (m.heap.allocate (.closure ⟨r, #[]⟩)).1 })
    fun _ => Larger { m with heap := (m.heap.allocate (.closure ⟨r, #[]⟩)).1 } :=
  have s := Larger.stable { m with heap := (m.heap.allocate (.closure ⟨r, #[]⟩)).1 }
  .bind (.allocate (Keeps.bind (.push s _) (fun _ => .callClosure s _ _) _ (.refl h)))

theorem Larger.load (h : m.hosts = #[]) (source : String) : Larger m (m.load source).2 := by
  have compiled : Larger m { m with heap := (Compile.compile source m.heap).heap } :=
    ⟨h, (Compile.compile_gains source m.heap).onward⟩
  rw [load_eq]
  split
  next => exact compiled
  next r _ =>
    have entered := larger_enter compiled.hosts r
    have allocated : (Compile.compile source m.heap).heap.Onward
        ((Compile.compile source m.heap).heap.allocate (.closure ⟨r, #[]⟩)).1 :=
      .allocate (by simp) (by simp) .refl
    unfold Ends at entered
    simp only [EStateM.run]
    split
    next hx =>
      rw [hx] at entered
      exact compiled.trans ⟨entered.hosts, allocated.trans entered.onward⟩
    next hx =>
      rw [hx] at entered
      exact compiled.trans ⟨entered.hosts, allocated.trans entered.onward⟩

theorem Larger.interpret (h : m.hosts = #[]) (n : Nat) (source : String) :
    Larger m (m.interpret n source).2 := by
  have loaded := Larger.load h source
  unfold Machine.interpret
  split
  next hl =>
    rw [hl] at loaded
    exact loaded.trans (.run n loaded.hosts)
  next hl =>
    rw [hl] at loaded
    exact loaded

/-- The call of a script is set up. -/
theorem ends_enter {r : Ref} {f : Function} (h : Holds h₀ W [] [] m) (sound : Sound m.heap r)
    (hf : m.heap.function? r = some f) (arity : f.arity = 0) (count : f.upvalueCount = 0)
    (hb : (m.heap.allocate (.closure ⟨r, #[]⟩)).1.size ≤ UInt32.size) :
    Ends (enter r) m (fun _ m' => Arrives h₀ W m') fun _ _ => False := by
  have extends_ := m.heap.extends_allocate (.closure ⟨r, #[]⟩)
  have valid : ValidClosure (m.heap.allocate (.closure ⟨r, #[]⟩)).1 ⟨r, #[]⟩ :=
    ⟨sound.kept extends_.kept, ⟨f, extends_.function? hf, count.symm⟩, fun r hr => by simp at hr⟩
  have allocated : Holds h₀ W [] [] { m with heap := (m.heap.allocate (.closure ⟨r, #[]⟩)).1 } := by
    refine h.heap extends_.kept extends_.size_le (fun r' k hk => ?_) fun r' =>
      upvalue?_allocate (by simp)
    obtain old | ⟨e, -⟩ := Heap.get?_allocate_cases (Heap.closure?_eq_some.1 hk)
    · exact .inl (Heap.closure?_eq_some.2 old)
    · cases e
      exact .inr valid
  have closure : (m.heap.allocate (.closure ⟨r, #[]⟩)).1.closure?
      (m.heap.allocate (.closure ⟨r, #[]⟩)).2 = some ⟨r, #[]⟩ :=
    Heap.closure?_eq_some.2 ((Heap.Extends.refl _).get?_allocate hb)
  have size : m.stack.size = 0 := h.size
  refine .bind (.allocate (.bind ?_))
  unfold push
  have pushed := allocated.push (.object (m.heap.allocate (.closure ⟨r, #[]⟩)).2)
  refine .bind (.get ?_)
  rw [if_pos (by simp only [size]; decide)]
  refine .modify (.bind (.get ?_))
  simp only [closure, extends_.function? hf, Option.elim_some, arity, ne_eq, not_true_eq_false,
    if_false]
  refine .bind (.get ?_)
  rw [if_pos (by simp only [h.frames]; decide)]
  refine .modify ⟨[false], ?_, fun hb => ?_⟩
  · simp only [h.frames, Array.size_push, size]
    exact pushed.move
  · simp only [h.frames, Array.size_push, size]
    obtain ⟨c, active⟩ := (pushed.closures hb).active closure (extends_.function? hf) 0 0
    have start := active.fits.start
    rw [arity] at start
    exact .active (σ := [false]) active start rfl .nil

theorem Invariant.load (inv : Invariant m) (hf : m.frames = []) (source : String)
    (hb : (m.load source).2.heap.size ≤ UInt32.size) : Invariant (m.load source).2 := by
  have idle : Holds m.heap (fun _ _ => False) [] [] m := by
    obtain ⟨σ, size, stacked, tracked⟩ := inv.stacked
    rw [hf] at stacked
    cases stacked
    exact ⟨hf, size, inv.hosts, .refl _, Nat.le_refl _, fun _ => inv.closures, fun _ => tracked,
      fun _ _ _ => False.elim⟩
  have compiled := idle.gains (Compile.compile_gains source m.heap)
  rw [load_eq] at hb ⊢
  split
  next hr =>
    rw [hr] at hb
    exact compiled.invariant hb
  next r hr =>
    rw [hr] at hb
    have larger := larger_enter compiled.hosts r
    have arrives (bound : ((Compile.compile source m.heap).heap.allocate
        (.closure ⟨r, #[]⟩)).1.size ≤ UInt32.size) :
        Ends (enter r) { m with heap := (Compile.compile source m.heap).heap }
          (fun _ m' => Arrives m.heap (fun _ _ => False) m') fun _ _ => False := by
      obtain ⟨sound, f, hf, arity, count⟩ := Compile.compile_sound hr
        (Nat.le_trans (Heap.extends_allocate _ _).size_le bound)
      exact ends_enter compiled sound hf arity count bound
    simp only [EStateM.run] at hb ⊢
    unfold Ends at larger arrives
    cases hx : enter r { m with heap := (Compile.compile source m.heap).heap } with
    | ok _ m' =>
      rw [hx] at hb larger arrives
      exact (arrives (Nat.le_trans larger.size hb)).invariant hb
    | error _ m' =>
      rw [hx] at hb larger arrives
      exact (arrives (Nat.le_trans larger.size hb)).elim

end Load

section Runs

variable {m : Machine}

theorem run_of_running (h : m.step.1 = .running) (n : Nat) : m.run (n + 1) = run n m.step.2 := by
  rw [Machine.run]
  generalize m.step = s at h ⊢
  obtain ⟨p, m'⟩ := s
  obtain rfl := h
  rfl

theorem run_of_stopped (h : m.step.1 ≠ .running) (n : Nat) : m.run (n + 1) = m.step := by
  rw [Machine.run]
  split
  next hs => exact absurd (congrArg Prod.fst hs) h
  next => rfl

theorem Invariant.run (inv : Invariant m) {n : Nat} (hb : (m.run n).2.heap.size ≤ UInt32.size)
    (stays : (m.run n).1.Stays) : Invariant (m.run n).2 := by
  induction n generalizing m with
  | zero => exact inv
  | succ n ih =>
    have larger := Larger.step inv.hosts
    by_cases hs : m.step.1 = .running
    · rw [run_of_running hs] at hb stays ⊢
      have size := Nat.le_trans (Larger.run n larger.hosts).size hb
      have stepped := inv.step (Nat.le_trans larger.size size)
      exact ih (stepped.invariant size fun _ e => by rw [hs] at e; cases e) hb stays
    · rw [run_of_stopped hs] at hb stays ⊢
      exact (inv.step (Nat.le_trans larger.size hb)).invariant hb stays

theorem Reachable.hosts (h : Reachable m) : m.hosts = #[] := by
  induction h with
  | new output world => exact (holds_new output world).hosts
  | outside _ _ ih => exact ih
  | load source _ _ ih => exact (Larger.load ih source).hosts
  | step _ _ ih => exact (Larger.step ih).hosts
  | run n _ _ ih => exact (Larger.run n ih).hosts
  | interpret n source _ _ _ ih => exact (Larger.interpret ih n source).hosts

/-- The machine behind loading. -/
theorem interpret_cases (n : Nat) (source : String) : m.interpret n source = run n (m.load source).2 ∨
    ∃ e, m.interpret n source = (.failed e, (m.load source).2) := by
  unfold Machine.interpret
  split
  next hl => exact .inl (by rw [hl])
  next e _ hl => exact .inr ⟨e, by rw [hl]⟩

theorem Reachable.invariant (h : Reachable m) (hb : m.heap.size ≤ UInt32.size) : Invariant m := by
  induction h with
  | new output world => exact (holds_new output world).invariant hb
  | outside world _ ih =>
    have inv := ih hb
    exact ⟨inv.hosts, inv.closures, inv.stacked⟩
  | load source h idle ih =>
    exact (ih (Nat.le_trans (Larger.load h.hosts source).size hb)).load idle source hb
  | step h stays ih =>
    have size := Nat.le_trans (Larger.step h.hosts).size hb
    exact ((ih size).step size).invariant hb stays
  | run n h stays ih =>
    exact (ih (Nat.le_trans (Larger.run n h.hosts).size hb)).run hb stays
  | @interpret m n source h idle stays ih =>
    have inv := ih (Nat.le_trans (Larger.interpret h.hosts n source).size hb)
    obtain e | ⟨err, e⟩ := m.interpret_cases n source
    · rw [e] at hb stays ⊢
      have loaded := Larger.load h.hosts source
      exact (inv.load idle source (Nat.le_trans (Larger.run n loaded.hosts).size hb)).run hb stays
    · rw [e] at hb ⊢
      exact inv.load idle source hb

end Runs
end Machine
end StackScript
