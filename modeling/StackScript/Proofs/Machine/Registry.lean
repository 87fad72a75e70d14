import StackScript.Proofs.Machine.Safety

/-!
# StackScript.Proofs.Machine.Registry

The list of open upvalues.

* `Registered`: the list is in the order of the slots, and it has all open upvalues of the heap.
* `Registered.captureSlot_of_opened`: a slot that has an open upvalue does not get a second one.
* `Reachable.registered`: this holds in every reachable machine.
-/

namespace StackScript
namespace Machine

open Bytecode

/-- The list of open upvalues, from its end on, goes up the stack, and it has exactly the upvalues
that are open. -/
structure Registered (m : Machine) : Prop where
  ascending : (m.openUpvalues.reverse.map (slotOf m.heap)).Pairwise (· < ·)
  opened : ∀ r ∈ m.openUpvalues, ∃ slot, m.heap.get? r = some (.upvalue (.opened slot)) ∧
    slotOf m.heap r = slot ∧ slot < m.stack.size
  complete : ∀ r slot, m.heap.get? r = some (.upvalue (.opened slot)) → r ∈ m.openUpvalues
  unique : ∀ r r' slot, m.heap.get? r = some (.upvalue (.opened slot)) →
    m.heap.get? r' = some (.upvalue (.opened slot)) → r = r'

theorem Tracked.toRegistered {m : Machine} {σ : Shape} (t : Tracked m.heap m.openUpvalues σ)
    (size : m.stack.size = σ.length) : Registered m where
  ascending := by
    -- The list is kept from the highest slot on.
    rw [List.pairwise_map, List.pairwise_reverse]
    exact t.sorted
  opened r hr := by
    obtain ⟨slot, hs⟩ := (t.opened r).1 hr
    exact ⟨slot, Heap.upvalue?_eq_some.1 hs, slotOf_eq hs, size ▸ (t.allowed r slot hs).lt⟩
  complete r slot hr := (t.opened r).2 ⟨slot, Heap.upvalue?_eq_some.2 hr⟩
  unique r r' slot hr hr' := t.unique (Heap.upvalue?_eq_some.2 hr) (Heap.upvalue?_eq_some.2 hr')

theorem Invariant.toRegistered {m : Machine} (inv : Invariant m) : Registered m := by
  obtain ⟨σ, size, -, tracked⟩ := inv.stacked
  exact tracked.toRegistered size

/-- Closures that capture the same slot share its upvalue. -/
theorem Registered.captureSlot_of_opened {m : Machine} (h : Registered m) {r : Ref} {slot : Nat}
    (hr : m.heap.get? r = some (.upvalue (.opened slot))) : m.captureSlot slot = (m, r) := by
  have listed := h.complete r slot hr
  have here : slotOf m.heap r = slot := slotOf_eq (Heap.upvalue?_eq_some.2 hr)
  rw [captureSlot]
  split
  next r' found =>
    obtain ⟨slot', hr', here', -⟩ := h.opened r' (List.mem_of_find?_eq_some found)
    have same : slotOf m.heap r' = slot := by simpa using List.find?_some found
    obtain rfl : slot' = slot := here'.symm.trans same
    rw [h.unique r' r slot' hr' hr]
  next missing =>
    have := List.find?_eq_none.1 missing r listed
    simp [here] at this

/-- In every machine that only runs compiled scripts, the list of open upvalues goes up the stack
strictly, its entries are open upvalues of slots that are in use, and no open upvalue is missing. -/
theorem Reachable.registered {m : Machine} (h : Reachable m) (hb : m.heap.size ≤ UInt32.size) :
    Registered m :=
  (h.invariant hb).toRegistered

/-- A machine in a function that has captured a variable of the script. -/
theorem registered_in_function :
    let m := (((new .unlimited .still).load "{ var x; fun f() { x = nil; } f(); }").2.run 5).2
    Reachable m ∧ m.heap.size ≤ UInt32.size ∧ m.openUpvalues.length = 1 ∧ Registered m := by
  have size : (((new .unlimited .still).load "{ var x; fun f() { x = nil; } f(); }").2.run
      5).2.heap.size = 26 := by
    decide +kernel
  have small : (((new .unlimited .still).load "{ var x; fun f() { x = nil; } f(); }").2.run
      5).2.heap.size ≤ UInt32.size := by
    rw [size]
    decide
  have listed : (((new .unlimited .still).load "{ var x; fun f() { x = nil; } f(); }").2.run
      5).2.openUpvalues.length = 1 := by
    decide +kernel
  exact ⟨reachable_in_function, small, listed, reachable_in_function.registered small⟩

end Machine
end StackScript
