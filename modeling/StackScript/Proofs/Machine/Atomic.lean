import StackScript.Proofs.Machine.Reachable

/-!
# StackScript.Proofs.Machine.Atomic

What is left of a script that cannot be loaded.

* `Untouched`: a machine is as it was, but for its stack and what was put on its heap.
* `load_failed`: loading that fails leaves the machine untouched. It leaves the stack as it was, too,
  unless the calls nest too deep already: then the closure of the script stays on the stack.
-/

namespace StackScript
namespace Machine

open Compile (compile compile_gains compile_sound)

/-- Nothing is changed but the stack, and objects were put on the heap. -/
structure Untouched (m m' : Machine) : Prop where
  frames : m'.frames = m.frames
  globals : m'.globals = m.globals
  openUpvalues : m'.openUpvalues = m.openUpvalues
  output : m'.output = m.output
  world : m'.world = m.world
  hosts : m'.hosts = m.hosts
  heap : m.heap.Extends m'.heap

section Calls

variable {m : Machine} {r : Ref}

/-- A call that cannot be started changes nothing. If there is a function that takes no arguments,
then there are too many calls. -/
theorem ends_callClosure_refused : Ends (callClosure r 0) m (fun _ _ => True) fun s m' =>
    m' = m ∧ ∀ k f, m.heap.closure? r = some k → m.heap.function? k.function = some f →
      f.arity = 0 → s = .fault .stackOverflow ∧ frameLimit ≤ m.frames.length := by
  refine .bind (.get ?_)
  dsimp only
  split
  next none => exact .throw ⟨rfl, fun k f hk => by rw [none] at hk; cases hk⟩
  next c hc =>
    split
    next wrong =>
      refine .fail ⟨rfl, fun k f hk hf arity => ?_⟩
      obtain rfl := Option.some.inj (hc.symm.trans hk)
      rw [hf] at wrong
      exact absurd arity.symm wrong
    next =>
      refine .bind (.get ?_)
      split
      next => exact trivial
      next deep => exact ⟨rfl, fun _ _ _ _ _ => ⟨rfl, Nat.le_of_not_lt deep⟩⟩

/-- The machine with the closure of a function on its heap. -/
def withClosure (m : Machine) (r : Ref) : Machine :=
  { m with heap := (m.heap.allocate (.closure ⟨r, #[]⟩)).1 }

/-- Setting up the call of a script fails in front of its closure on the stack, or behind it. -/
theorem ends_enter_refused : Ends (enter r) m (fun _ _ => True) fun s m' =>
    (stackLimit ≤ m.stack.size ∧ s = .fault .stackOverflow ∧ m' = m.withClosure r) ∨
    (m.stack.size < stackLimit ∧
      m' = { m.withClosure r with
        stack := m.stack.push (.object (m.heap.allocate (.closure ⟨r, #[]⟩)).2) } ∧
      ∀ f, m.heap.function? r = some f → f.arity = 0 → m'.heap.size ≤ UInt32.size →
        s = .fault .stackOverflow ∧ frameLimit ≤ m.frames.length) := by
  refine .bind (.allocate (.bind (.bind (.get ?_))))
  split
  next room =>
    refine .modify (ends_callClosure_refused.imp (fun _ _ h => h) fun s m' h => ?_)
    obtain ⟨rfl, deep⟩ := h
    refine .inr ⟨room, rfl, fun f hf arity small => ?_⟩
    have extends_ := m.heap.extends_allocate (.closure ⟨r, #[]⟩)
    have closure := Heap.closure?_eq_some.2 ((Heap.Extends.refl _).get?_allocate small)
    exact deep _ f closure (extends_.function? hf) arity
  next full => exact .fail (.inl ⟨Nat.le_of_not_lt full, rfl, rfl⟩)

end Calls

/-- The errors of the compiler, or the script that it made. -/
theorem compile_cases (source : String) (h : Heap) :
    (∃ errors, (compile source h).result = .error errors) ∨
      ∃ r, (compile source h).result = .ok r := by
  cases (compile source h).result with
  | error errors => exact .inl ⟨errors, rfl⟩
  | ok r => exact .inr ⟨r, rfl⟩

/-- Loading that fails changes nothing but the heap, with one exception: a script that compiles and
whose closure has room on the stack leaves it there. As long as handles do not run out this happens
only if the calls nest as deep as they may. -/
theorem load_failed {m : Machine} {source : String} {e : Error}
    (failed : (m.load source).1 = .error e) :
    Untouched m (m.load source).2 ∧
    ((m.load source).2.stack = m.stack ↔
      (∃ errors, e = .compile errors) ∨ stackLimit ≤ m.stack.size) ∧
    ((m.load source).2.stack = m.stack ∨
      ∃ r, (m.load source).2.stack = m.stack.push (.object r) ∧
        ((m.load source).2.heap.size ≤ UInt32.size →
          frameLimit ≤ m.frames.length ∧ e = .runtime .stackOverflow [])) := by
  have gains := compile_gains source m.heap
  rw [load_eq] at failed ⊢
  obtain ⟨errors, he⟩ | ⟨r, hr⟩ := compile_cases source m.heap
  · simp only [he] at failed ⊢
    cases failed
    exact ⟨⟨rfl, rfl, rfl, rfl, rfl, rfl, gains.extends⟩, by simp, by simp⟩
  · have refused := ends_enter_refused (m := { m with heap := (compile source m.heap).heap }) (r := r)
    simp only [hr, EStateM.run] at failed ⊢
    unfold Ends at refused
    cases hx : enter r { m with heap := (compile source m.heap).heap } with
    | ok _ m' =>
      rw [hx] at failed
      cases failed
    | error s m' =>
      rw [hx] at failed refused
      cases failed
      have grown : m.heap.Extends
          ((compile source m.heap).heap.allocate (.closure ⟨r, #[]⟩)).1 :=
        gains.extends.trans (Heap.extends_allocate _ _)
      obtain ⟨full, rfl, rfl⟩ | ⟨room, rfl, deep⟩ := refused
      · exact ⟨⟨rfl, rfl, rfl, rfl, rfl, rfl, grown⟩, by simp [withClosure, full], .inl rfl⟩
      · refine ⟨⟨rfl, rfl, rfl, rfl, rfl, rfl, grown⟩, ?_, .inr ⟨_, rfl, fun small => ?_⟩⟩
        · have more : (m.stack.push (.object ((compile source m.heap).heap.allocate
              (.closure ⟨r, #[]⟩)).2)) ≠ m.stack := fun same => by
            have := congrArg Array.size same
            simp at this
          have compiled : ¬∃ errors, s.error = .compile errors := by
            rintro ⟨errors, he⟩
            cases s <;> cases he
          simpa [more, compiled] using room
        · obtain ⟨-, f, hf, arity, -⟩ := compile_sound hr
            (Nat.le_trans (Heap.extends_allocate _ _).size_le small)
          obtain ⟨rfl, calls⟩ := deep f hf arity small
          exact ⟨calls, rfl⟩

/-- A machine with as many calls as there may be, all of them of empty scripts. -/
def filled : Machine := Nat.repeat (fun m : Machine => (m.load "").2) frameLimit (new .unlimited .still)

theorem load_filled :
    filled.frames.length = frameLimit ∧ filled.stack.size = frameLimit ∧
    (filled.load "print 1;").1 = .error (.runtime .stackOverflow []) ∧
    (filled.load "print 1;").2.stack.size = frameLimit + 1 := by
  decide +kernel

/-- One more script than there may be cannot be loaded. -/
theorem load_failed_filled :
    (filled.load "print 1;").1 = .error (.runtime .stackOverflow []) ∧
    Untouched filled (filled.load "print 1;").2 := by
  obtain ⟨-, -, failed, -⟩ := load_filled
  exact ⟨failed, (load_failed failed).1⟩

/-- The closure of that script stays on the stack. -/
theorem load_leaves_closure :
    (filled.load "print 1;").1 = .error (.runtime .stackOverflow []) ∧
    (filled.load "print 1;").2.stack ≠ filled.stack := by
  obtain ⟨-, before, failed, behind⟩ := load_filled
  refine ⟨failed, fun same => ?_⟩
  rw [same, before] at behind
  cases behind

end Machine
end StackScript
