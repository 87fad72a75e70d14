import StackScript.Proofs.Machine.Interned
import StackScript.Proofs.Machine.Outcome

/-!
# StackScript.Proofs.Machine.Interpreted

Machines that interpret one source after another.

* `Interpreted`: such a machine between two sources.
* `shared_new`: a new machine does the same as itself.
* `Interpreted.shared`: so does a machine between two sources, and nothing is called.
-/

namespace StackScript
namespace Machine

open Compile

/-- Machines between two sources that they interpret to the end. -/
inductive Interpreted : Machine → Prop where
  | new (output : Output) (world : World) : Interpreted (.new output world)
  /-- The world outside may change between two sources. -/
  | outside {m : Machine} (world : World) : Interpreted m → Interpreted { m with world }
  | interpret {m : Machine} (n : Nat) (source : String) : Interpreted m →
      (m.interpret n source).1 ≠ .running → (m.interpret n source).1.Stays →
      Interpreted (m.interpret n source).2

section Idle

variable {m : Machine}

theorem frames_run {n : Nat} (stopped : (m.run n).1 ≠ .running) (stays : (m.run n).1.Stays) :
    (m.run n).2.frames = [] := by
  induction n generalizing m with
  | zero => exact absurd rfl stopped
  | succ n ih =>
    by_cases hs : m.step.1 = .running
    · rw [run_of_running hs] at stopped stays ⊢
      exact ih stopped stays
    · rw [run_of_stopped hs] at stopped stays ⊢
      exact frames_step stopped stays

/-- Without calls there is nothing on the stack. -/
theorem Invariant.idle (inv : Invariant m) (hf : m.frames = []) : m.Idle := by
  obtain ⟨σ, size, stacked, tracked⟩ := inv.stacked
  rw [hf] at stacked
  cases stacked
  refine ⟨hf, Array.eq_empty_of_size_eq_zero size, ?_, inv.hosts⟩
  refine List.eq_nil_iff_forall_not_mem.2 fun r hr => ?_
  obtain ⟨slot, hu⟩ := (tracked.opened r).1 hr
  have := (tracked.allowed r slot hu).lt
  simp at this

end Idle

section New

variable {s : Setting} {b : Bridge} {m n : Machine}

/-- Both machines get the same native. -/
theorem Shared.define (t : Shared s b m n) (name : String) (arity : Nat) (p : Procedure)
    (fits : m.heap.size + 2 ≤ UInt32.size) (fits' : n.heap.size + 2 ≤ UInt32.size) :
    ∃ b', Shared s b' (m.define name arity p) (n.define name arity p) := by
  have size := size_intern_le m.heap name
  have size' := size_intern_le n.heap name
  have hr := m.heap.string?_intern name (by omega)
  have hq := n.heap.string?_intern name (by omega)
  obtain ⟨b₁, below₁, matched₁, near₁, far₁, -⟩ := t.matched.intern name
    (by rw [t.near]; omega) (by rw [t.far]; omega)
  rw [t.near] at near₁
  rw [t.far] at far₁
  obtain ⟨b₂, below₂, matched₂, near₂, far₂, pair⟩ := matched₁.allocate
    (o := .native ⟨name, arity, p⟩) (p := .native ⟨name, arity, p⟩) (fun _ _ => .native _)
    (by rw [near₁, Heap.size_allocate]; omega) (by rw [far₁, Heap.size_allocate]; omega)
  rw [near₁] at near₂ pair
  rw [far₁] at far₂ pair
  have globals := t.globals.mono (below₁.trans below₂) matched₂.near matched₂.far
  have named : b₂.near.string? (m.heap.intern name).2 = some name :=
    below₂.near.string? (near₁ ▸ hr)
  have named' : b₂.far.string? (n.heap.intern name).2 = some name :=
    below₂.far.string? (far₁ ▸ hq)
  exact ⟨b₂, near₂, far₂, matched₂, (globals.insert matched₂.near matched₂.far named named'
    (.object (.paired pair))).1, t.output, t.world, t.hosts, t.hosts'⟩

theorem size_define_le (m : Machine) (name : String) (arity : Nat) (p : Procedure) :
    (m.define name arity p).heap.size ≤ m.heap.size + 2 := by
  have size := Heap.size_allocate (m.heap.intern name).1 (.native ⟨name, arity, p⟩)
  have named := size_intern_le m.heap name
  have all : (m.define name arity p).heap.size = (m.heap.intern name).1.size + 1 := size
  omega

/-- A new machine does the same as itself. -/
theorem shared_new (s : Setting) (output : Output) (world : World) :
    ∃ b, Shared s b (.new output world) (.new output world) := by
  have fold (bs : List Builtin) (m : Machine) (b : Bridge) (t : Shared s b m m)
      (fits : m.heap.size + 2 * bs.length ≤ UInt32.size) : ∃ b', Shared s b'
        (bs.foldl (fun m b => m.define b.name b.arity (.builtin b)) m)
        (bs.foldl (fun m b => m.define b.name b.arity (.builtin b)) m) := by
    induction bs generalizing m b with
    | nil => exact ⟨b, t⟩
    | cons native bs ih =>
      rw [List.length_cons] at fits
      obtain ⟨b', t'⟩ := t.define native.name native.arity (.builtin native) (by omega) (by omega)
      have size := size_define_le m native.name native.arity (.builtin native)
      exact ih (m.define native.name native.arity (.builtin native)) b' t' (by omega)
  have bare : Shared s ⟨fun _ _ => False, .empty, .empty⟩ (bare output world)
      (bare output world) := by
    refine ⟨rfl, rfl, ⟨nofun, nofun, Heap.sound_empty, Heap.sound_empty, nofun⟩,
      ⟨∅, ∅, ∅, ∅, .empty _, .empty _, fun name => ?_⟩, rfl, rfl, rfl, rfl⟩
    rw [Finmap.lookup_empty]
    exact .none
  unfold Machine.new
  refine fold Builtin.all _ _ bare ?_
  change 0 + 2 * Builtin.all.length ≤ UInt32.size
  decide

end New

section Load

variable {s : Setting} {b β : Bridge} {c : Seam} {m n : Machine} {source whole : String}
  {r q : Ref} {f g : Function}

theorem interpret_ok (idle : m.Idle) (ok : (compile source m.heap).result = .ok r)
    (fits : (m.load source).2.heap.size ≤ UInt32.size) (count : Nat) :
    m.interpret count source = run count (m.load source).2 := by
  unfold Machine.interpret
  rw [load_ok idle ok fits]

theorem interpret_error {errors : List Compile.Error}
    (error : (compile source m.heap).result = .error errors) (count : Nat) :
    m.interpret count source =
      (.failed (.compile errors), { m with heap := (compile source m.heap).heap }) := by
  unfold Machine.interpret
  rw [load_eq, error]

theorem load_le_interpret (hosts : m.hosts = #[]) (source : String) (count : Nat) :
    (m.load source).2.heap.size ≤ (m.interpret count source).2.heap.size := by
  obtain e | ⟨_, e⟩ := m.interpret_cases count source
  · rw [e]
    exact (Larger.run count (Larger.load hosts source).hosts).size
  · rw [e]

theorem size_interpret_le (hosts : m.hosts = #[]) {source : String} {count : Nat}
    (ended : (m.interpret count source).1 ≠ .running) (j : Nat) :
    (m.interpret j source).2.heap.size ≤ (m.interpret count source).2.heap.size := by
  have larger := Larger.load hosts source
  unfold Machine.interpret at ended ⊢
  cases hl : m.load source with
  | mk result m' =>
    rw [hl] at larger ended
    cases result with
    | ok => exact size_run_le larger.hosts ended j
    | error => exact Nat.le_refl _

/-- Two machines whose scripts do the same up to the end of the near one. -/
theorem abreast_load (hm : Reachable m) (hn : Reachable n) (t : Shared s b m n) (idle : m.Idle)
    (idle' : n.Idle) (ok : (compile source m.heap).result = .ok r)
    (ok' : (compile whole n.heap).result = .ok q)
    (inside : Inside c source m.heap r 0 β f g) (near : c.near = m.heap.size)
    (far : c.far = n.heap.size) (later : β.far.Extends (compile whole n.heap).heap)
    (found : (compile whole n.heap).heap.function? q = some g)
    (fits : (m.load source).2.heap.size ≤ UInt32.size)
    (fits' : (n.load whole).2.heap.size ≤ UInt32.size) :
    Abreast (s.extended c r q 0 fun q => q.index < β.far.size) (m.load source).2
      (n.load whole).2 ∧ Invariant (n.load whole).2 ∧
      (m.load source).2.heap.function? r = some f ∧
      (n.load whole).2.heap.function? q = some g := by
  have inv := hm.invariant (Nat.le_trans (Larger.load hm.hosts source).size fits)
  have inv' := hn.invariant (Nat.le_trans (Larger.load hn.hosts whole).size fits')
  obtain ⟨_, built⟩ := (Reachable.load source hm idle.frames).built fits
  obtain ⟨_, built'⟩ := (Reachable.load whole hn idle'.frames).built fits'
  obtain ⟨b', twin⟩ := twin_load t idle idle' ok ok' inside near far later found fits fits'
    built.sound built'.sound
  obtain ⟨hf, -, -⟩ := found_script inside (Nat.le_trans (size_compiled idle.hosts ok) fits)
  have hf := (extends_load idle ok fits).function? hf
  refine ⟨⟨⟨b', twin, fun call hc => ?_⟩, inv.load idle.frames source fits, f, hf, inside.script⟩,
    inv'.load idle'.frames whole fits', hf, (extends_load idle' ok' fits').function? found⟩
  rw [load_ok idle ok fits] at hc
  cases hc

end Load

namespace Interpreted

variable {m : Machine}

theorem hosts (h : Interpreted m) : m.hosts = #[] := by
  induction h with
  | new output world => exact (holds_new output world).hosts
  | outside _ _ ih => exact ih
  | interpret n source _ _ _ ih => exact (Larger.interpret ih n source).hosts

/-- Between two sources nothing is called, and the machine does the same as itself. -/
theorem shared (h : Interpreted m) (fits : m.heap.size ≤ UInt32.size) : m.Reachable ∧ m.Idle ∧
    ∃ s b, Shared s b m m ∧ ∀ r, s.shift r = 0 := by
  induction h with
  | new output world =>
    have holds := holds_new output world
    obtain ⟨b, t⟩ := shared_new ⟨fun _ => 0, ⟨0⟩, ⟨0⟩, 0, fun _ => True⟩ output world
    exact ⟨.new output world, (holds.invariant fits).idle holds.frames, _, b, t, fun _ => rfl⟩
  | outside world _ ih =>
    obtain ⟨reachable, idle, s, b, t, unmoved⟩ := ih fits
    exact ⟨.outside world reachable, ⟨idle.frames, idle.stack, idle.opens, idle.hosts⟩, s, b,
      ⟨t.near, t.far, t.matched, t.globals, t.output, rfl, t.hosts, t.hosts'⟩, unmoved⟩
  | @interpret m count source h stopped stays ih =>
    obtain ⟨reachable, idle, s, b, t, unmoved⟩ :=
      ih (Nat.le_trans (Larger.interpret h.hosts count source).size fits)
    have reachable' := Reachable.interpret count source reachable idle.frames stays
    have inv := reachable'.invariant fits
    refine ⟨reachable', ?_⟩
    cases result : (compile source m.heap).result with
    | error errors =>
      rw [interpret_error result] at fits inv ⊢
      obtain ⟨texts, built⟩ := reachable.built (Nat.le_trans
        (compile_gains source m.heap).extends.size_le fits)
      have kept := (compile_gains source m.heap).extends
      have sound := built.sound
      obtain ⟨below, matched⟩ := t.matched.extend (t.near ▸ kept) (t.far ▸ kept)
        ((compile_gains source m.heap).sound sound fits)
        ((compile_gains source m.heap).sound sound fits)
      exact ⟨inv.idle idle.frames, s, _, t.onward below matched rfl rfl, unmoved⟩
    | ok r =>
      have room := Nat.le_trans (load_le_interpret h.hosts source count) fits
      rw [interpret_ok idle result room] at fits inv stopped stays ⊢
      have compiled := Nat.le_trans (size_compiled idle.hosts result) room
      obtain ⟨c, b, f, shift, near, far, inside, again⟩ := compile_twice result compiled
      have later := Heap.extends_allocate b.far (.function f)
      have found := (Heap.Extends.refl (b.far.allocate (.function f)).1).function?_allocate
      rw [again] at later found
      obtain ⟨abreast, invariant, hf, -⟩ := abreast_load reachable reachable t idle idle result
        result inside near far later (found compiled) room room
      have ending : Ending (s.extended c r r 0 fun q => q.index < b.far.size) (m.load source).2
          (m.load source).2 := ⟨invariant, f, f, hf, hf, inside.script, (Nat.zero_add _).symm⟩
      obtain ⟨⟨b', shared⟩, -⟩ := abreast.outcome ending count fits fits
      refine ⟨inv.idle (frames_run stopped stays), _, b', shared, fun r' => ?_⟩
      rw [Setting.extended_shift unmoved, shift, movedBehind, ite_self]

end Interpreted
end Machine
end StackScript
