import StackScript.Proofs.Machine.Stable

/-!
# StackScript.Proofs.Machine.Grows

Heaps only grow, whatever a machine executes.

* `Larger`: a machine without functions of the host whose heap has gone on from another one.
* `Larger.step`, `Larger.run`: every run leads to larger machines only.
-/

namespace StackScript
namespace Machine

structure Larger (m m' : Machine) : Prop where
  hosts : m'.hosts = #[]
  onward : m.heap.Onward m'.heap

theorem Larger.size {m m' : Machine} (h : Larger m m') : m.heap.size ≤ m'.heap.size :=
  h.onward.size_le

theorem Larger.refl {m : Machine} (h : m.hosts = #[]) : Larger m m := ⟨h, .refl⟩

theorem Larger.trans {m₁ m₂ m₃ : Machine} (h : Larger m₁ m₂) (h' : Larger m₂ m₃) : Larger m₁ m₃ :=
  ⟨h'.hosts, h.onward.trans h'.onward⟩

/-- Heaps go on behind any change to the machine. -/
theorem Larger.stable (m : Machine) : Stable (Larger m) where
  hosts h := h.hosts
  push _ h _ := ⟨h.hosts, h.onward⟩
  shrink h _ := ⟨h.hosts, h.onward⟩
  ip _ h _ := ⟨h.hosts, h.onward⟩
  call _ _ _ h _ := ⟨h.hosts, h.onward⟩
  heap h onward := ⟨h.hosts, h.onward.trans onward⟩
  upvalues _ h := ⟨h.hosts, h.onward⟩
  globals _ h := ⟨h.hosts, h.onward⟩
  outside _ _ h := ⟨h.hosts, h.onward⟩

theorem Larger.reset {m m' : Machine} (l : Larger m m') : Larger m m'.reset :=
  have closed := (Larger.stable m).gentle.closeUpvalues l 0
  ⟨closed.hosts, closed.onward⟩

theorem Larger.step {m : Machine} (h : m.hosts = #[]) : Larger m m.step.2 := by
  cases hf : m.frames with
  | nil =>
    rw [step_idle hf]
    exact .refl h
  | cons call outer =>
    obtain ⟨m', l, e⟩ | ⟨s, m', l, e⟩ :=
      step_cases hf (Keeps.instruction (Larger.stable m)
        (fun _ l => ⟨l.hosts, l.onward⟩) m (.refl h))
    · rw [e]
      exact l
    · rw [e]
      cases s with
      | exit => exact l
      | _ => exact l.reset

theorem Larger.run {m : Machine} (n : Nat) (h : m.hosts = #[]) : Larger m (m.run n).2 := by
  induction n generalizing m with
  | zero => exact .refl h
  | succ n ih =>
    have first := Larger.step h
    rw [Machine.run]
    split
    next hs =>
      rw [hs] at first
      exact first.trans (ih first.hosts)
    next => exact first

end Machine
end StackScript
