import StackScript.Proofs.Machine.Loaded

/-!
# StackScript.Proofs.Machine.Outcome

What two runs that do the same come to.

* `movedTrace`: the trace of a machine whose functions stand further down.
* `SameEnd`: the same end of two runs.
* `Shared.ends`, `Abreast.outcome`: runs of two machines whose scripts end at the same time.
-/

namespace StackScript
namespace Machine

open Compile

/-- The active calls, with the lines of each function moved down. -/
def movedTrace (m : Machine) (shift : Ref → Nat) : List TraceLine :=
  m.frames.filterMap fun frame => do
    let f ← m.heap.function? frame.function
    let line ← f.chunk.line? (frame.ip - 1)
    return ⟨line + shift frame.function, f.name.map m.nameText⟩

/-- Two runs, the first of them from `m`, have come to the same end. If it is a fault, the lines of
the near trace are moved down in the far one. -/
inductive SameEnd (shift : Ref → Nat) (m : Machine) : Progress → Progress → Prop where
  | same {p : Progress} : (∀ f trace, p ≠ .failed (.runtime f trace)) → SameEnd shift m p p
  | fault {f : Fault} {n : Nat} {p q : Machine} : m.run n = (.running, p) →
      instruction p = .error (.fault f) q →
      SameEnd shift m (.failed (.runtime f q.trace)) (.failed (.runtime f (q.movedTrace shift)))

section Halts

variable {s : Setting} {b : Bridge} {m n p q : Machine} {e : Stop}

theorem filterMap_congr₂ {α β γ : Type} {R : α → β → Prop} {f : α → Option γ} {g : β → Option γ}
    {xs : List α} {ys : List β} (h : List.Forall₂ R xs ys)
    (same : ∀ x ∈ xs, ∀ y, R x y → g y = f x) : ys.filterMap g = xs.filterMap f := by
  induction h with
  | nil => rfl
  | cons h _ ih =>
    rw [List.filterMap_cons, List.filterMap_cons, same _ List.mem_cons_self _ h,
      ih fun x hx => same x (List.mem_cons_of_mem _ hx)]

theorem Twin.trace (t : Twin s b m n) (moved : ∀ call ∈ m.frames, 0 < call.ip) :
    n.trace = m.movedTrace s.shift := by
  refine filterMap_congr₂ t.calls.forall₂ fun c hc d same => ?_
  obtain ⟨f, g, hf, hg, functions, inside⟩ := same.code
  have pos := moved c hc
  have ip := same.ip
  have line := functions.lines (c.ip - 1) (by omega)
  rw [show s.start c.function + (c.ip - 1) = d.ip - 1 by omega] at line
  have names : g.name.map n.nameText = f.name.map m.nameText := by
    have related := functions.name
    generalize f.name = name at related ⊢
    generalize g.name = name' at related ⊢
    cases related with
    | none => rfl
    | some hr hq =>
      rw [t.near] at hr
      rw [t.far] at hq
      simp only [Option.map_some, nameText, hr, hq]
  rw [t.near] at hf
  rw [t.far] at hg
  simp only [hf, hg, Option.bind_eq_bind, Option.bind_some, line, names]
  cases f.chunk.line? (c.ip - 1) <;> rfl

theorem Twin.reset (t : Twin s b m n) : ∃ b', Shared s b' m.reset n.reset := by
  obtain ⟨b', t', -⟩ := t.close 0
  exact ⟨b', t'.near, t'.far, t'.matched, t'.globals, t'.output, t'.world, t'.hosts, t'.hosts'⟩

theorem Halts.shared (h : Halts s e p q) :
    ∃ b, Shared s b (p.stopWith e).2 (q.stopWith e).2 := by
  obtain ⟨b, t, -⟩ := h
  cases e with
  | exit => exact ⟨b, t.toShared⟩
  | _ => exact t.reset

theorem Stopping.sameEnd {k : Nat} {m₀ : Machine} (h : Stopping s e m n p q)
    (run : m₀.run k = (.running, m)) : SameEnd s.shift m₀ (p.stopWith e).1 (q.stopWith e).1 := by
  obtain ⟨b, t, moved⟩ := h.halts
  cases e with
  | fault f =>
    rw [stopWith, stopWith, t.trace moved]
    exact .fault run h.near
  | _ => exact .same (by simp [stopWith])

end Halts
section Runs

variable {s : Setting} {b : Bridge} {m n m' n' : Machine} {f g : Function}

theorem run_add {i : Nat} (h : m.run i = (.running, m')) (j : Nat) : m.run (i + j) = m'.run j := by
  induction i generalizing m with
  | zero =>
    obtain rfl : m = m' := (Prod.mk.inj h).2
    rw [Nat.zero_add]
  | succ i ih =>
    have running : m.step.1 = .running := by
      by_contra stopped
      rw [run_of_stopped stopped] at h
      exact stopped (congrArg Prod.fst h)
    rw [run_of_running running] at h
    rw [Nat.add_right_comm, run_of_running running]
    exact ih h

/-- A run that comes to its end has the largest heap of all. -/
theorem size_run_le (hosts : m.hosts = #[]) {count : Nat} (ended : (m.run count).1 ≠ .running)
    (j : Nat) : (m.run j).2.heap.size ≤ (m.run count).2.heap.size := by
  induction count generalizing m j with
  | zero => exact absurd rfl ended
  | succ count ih =>
    cases j with
    | zero => exact (Larger.run (count + 1) hosts).size
    | succ j =>
      by_cases running : m.step.1 = .running
      · rw [run_of_running running] at ended ⊢
        rw [run_of_running running]
        exact ih (Larger.step hosts).hosts ended j
      · rw [run_of_stopped running, run_of_stopped running]

theorem Stopping.run {s : Setting} {e : Stop} {p q : Machine} {i k : Nat}
    (h : Stopping s e m' n' p q) (hm : m.run i = (.running, m')) (hn : n.run i = (.running, n'))
    (lt : i < k) : m.run k = p.stopWith e ∧ n.run k = q.stopWith e := by
  have stops (x : Machine) : (x.stopWith e).1 ≠ .running := by cases e <;> simp [stopWith]
  obtain ⟨j, rfl⟩ := Nat.exists_eq_add_of_lt lt
  rw [Nat.add_assoc, run_add hm, run_add hn, run_of_stopped (by rw [h.step]; exact stops p),
    run_of_stopped (by rw [h.step']; exact stops q)]
  exact ⟨h.step, h.step'⟩

theorem Invariant.run_kept (inv : Invariant m) (n : Nat)
    (fits : (m.run n).2.heap.size ≤ UInt32.size) : m.heap.Kept (m.run n).2.heap := by
  induction n generalizing m with
  | zero => exact .refl _
  | succ n ih =>
    have larger := Larger.step inv.hosts
    by_cases hs : m.step.1 = .running
    · rw [run_of_running hs] at fits ⊢
      have size := Nat.le_trans (Larger.run n larger.hosts).size fits
      have stepped := inv.step (Nat.le_trans larger.size size)
      have next := stepped.invariant size fun _ e => by rw [hs] at e; cases e
      exact stepped.kept.trans (ih next fits)
    · rw [run_of_stopped hs] at fits ⊢
      exact (inv.step (Nat.le_trans larger.size fits)).kept

/-- Both scripts end. -/
theorem Shared.ends (t : Shared s b m n) (near : Spent m) (far : Spent n) (inv : Invariant m)
    (inv' : Invariant n) (count : Nat) : Shared s b (m.run count).2 (n.run count).2 ∧
      (n.run count).1 = (m.run count).1 ∧
      ∀ f trace, (m.run count).1 ≠ .failed (.runtime f trace) := by
  obtain ⟨frames, stack, opens, e⟩ := near.run inv count
  obtain ⟨frames', stack', opens', e'⟩ := far.run inv' count
  rw [e, e']
  refine ⟨⟨t.near, t.far, t.matched, t.globals, t.output, t.world, t.hosts, t.hosts'⟩, rfl, ?_⟩
  intro f trace
  dsimp only
  split <;> simp

theorem Abreast.spent (h : Abreast s m n) (seam : AtSeam s m) : Spent m := by
  obtain ⟨f, hf, script⟩ := h.script
  obtain ⟨call, f', hm, hs, hf', hip⟩ := seam
  obtain rfl : f = f' := Option.some.inj (hf.symm.trans (hs ▸ hf'))
  exact ⟨call, f, hm, hf', script, hip⟩

/-- Where the near script ends, the far one does. -/
structure Ending (s : Setting) (m n : Machine) : Prop where
  invariant : Invariant n
  ending : ∃ f g, m.heap.function? s.script = some f ∧ n.heap.function? s.host = some g ∧
    g.IsScript ∧ g.chunk.code.size - 2 = s.offset + (f.chunk.code.size - 2)

theorem Ending.spent (h : Ending s m n) (t : Twin s b m n) (seam : AtSeam s m) : Spent n := by
  obtain ⟨f, g, hf, hg, script, size⟩ := h.ending
  obtain ⟨call, f', hm, hs, hf', hip⟩ := seam
  obtain rfl : f = f' := Option.some.inj (hf.symm.trans (hs ▸ hf'))
  have calls := t.calls
  rw [hm] at calls
  obtain ⟨d, hn, same⟩ := calls.single hs
  refine ⟨d, g, hn, same.host hs ▸ hg, script, ?_⟩
  have ip := same.ip
  rw [Setting.start, if_pos hs] at ip
  rw [ip, hip, size]

theorem Ending.run (h : Ending s m n) (inv : Invariant m) {i : Nat} (hm : m.run i = (.running, m'))
    (hn : n.run i = (.running, n')) (fits : m'.heap.size ≤ UInt32.size)
    (fits' : n'.heap.size ≤ UInt32.size) : Ending s m' n' := by
  obtain ⟨f, g, hf, hg, script, size⟩ := h.ending
  have near := inv.run_kept i (by rwa [hm])
  have far := h.invariant.run_kept i (by rwa [hn])
  have inv' := h.invariant.run (n := i) (by rwa [hn]) (by rw [hn]; nofun)
  rw [hm] at near
  rw [hn] at far inv'
  exact ⟨inv', f, g, near.function? hf, far.function? hg, script, size⟩

/-- Two runs whose scripts end at the same time. -/
theorem Abreast.outcome (h : Abreast s m n) (ending : Ending s m n) (count : Nat)
    (fits : (m.run count).2.heap.size ≤ UInt32.size)
    (fits' : (n.run count).2.heap.size ≤ UInt32.size) :
    (∃ b, Shared s b (m.run count).2 (n.run count).2) ∧
      SameEnd s.shift m (m.run count).1 (n.run count).1 := by
  obtain ⟨i, le, m', n', hm, hn, abreast, last⟩ | ⟨i, lt, m', n', e, p, q, hm, hn, stopping⟩ :=
    h.run count fits fits'
  · obtain ⟨b, t, -⟩ := abreast.meets
    obtain rfl | seam := last
    · rw [hm, hn]
      exact ⟨⟨b, t.toShared⟩, .same nofun⟩
    · obtain ⟨j, rfl⟩ := Nat.exists_eq_add_of_le le
      rw [run_add hm] at fits ⊢
      rw [run_add hn] at fits' ⊢
      have ending' := ending.run h.invariant hm hn
        (Nat.le_trans (Larger.run j t.hosts).size fits)
        (Nat.le_trans (Larger.run j t.hosts').size fits')
      obtain ⟨shared, same, other⟩ := t.toShared.ends (abreast.spent seam) (ending'.spent t seam)
        abreast.invariant ending'.invariant j
      rw [same]
      exact ⟨⟨b, shared⟩, .same other⟩
  · obtain ⟨e₁, e₂⟩ := stopping.run hm hn lt
    rw [e₁, e₂]
    exact ⟨stopping.halts.shared, stopping.sameEnd hm⟩

end Runs
end Machine
end StackScript
