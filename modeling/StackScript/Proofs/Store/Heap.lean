import StackScript.Store.Heap

/-!
# StackScript.Proofs.Store.Heap

What allocation does to a heap.

* `Heap.Extends`: everything on a heap is still there on another one.
* `Heap.Gains`: what compiling a source may do to a heap.
* `Heap.get?_allocate`, `Heap.string?_intern`: a new object is found at its handle, as long as
  handles do not run out.
-/

namespace StackScript

/-- All entries of an array are those of another one, which may be longer. -/
def Within {α : Type} (a b : Array α) : Prop :=
  ∀ ⦃i : Nat⦄ ⦃x : α⦄, a[i]? = some x → b[i]? = some x

namespace Within

variable {α : Type} {a b c : Array α}

theorem refl (a : Array α) : Within a a := fun _ _ h => h

theorem trans (h : Within a b) (h' : Within b c) : Within a c := fun _ _ hx => h' (h hx)

theorem push (a : Array α) (x : α) : Within a (a.push x) := by
  intro i y h
  obtain ⟨hi, hy⟩ := Array.getElem?_eq_some_iff.1 h
  rw [Array.getElem?_push_lt hi, hy]

theorem size_le (h : Within a b) : a.size ≤ b.size := by
  by_cases h₀ : a.size = 0
  · omega
  · have hi : a.size - 1 < a.size := by omega
    obtain ⟨hb, -⟩ := Array.getElem?_eq_some_iff.1 (h (Array.getElem?_eq_getElem hi))
    omega

end Within

/-- All objects of a heap are on another one. -/
def Heap.Extends (h h' : Heap) : Prop := Within h.objects h'.objects

theorem Heap.extends_allocate (h : Heap) (o : Object) : h.Extends (h.allocate o).1 := .push _ _

theorem Heap.extends_intern (h : Heap) (text : String) : h.Extends (h.intern text).1 := by
  unfold intern
  split
  · exact .refl _
  · exact .push _ _

namespace Heap

/-- A heap after strings and functions were put on it. -/
inductive Gains : Heap → Heap → Prop where
  | refl (h : Heap) : Gains h h
  | string {h h' : Heap} (text : String) : Gains h h' → Gains h (h'.intern text).1
  | function {h h' : Heap} (f : Function) : Gains h h' → Gains h (h'.allocate (.function f)).1

theorem Gains.trans {h h₁ h₂ : Heap} (g : Gains h h₁) (g' : Gains h₁ h₂) : Gains h h₂ := by
  induction g' with
  | refl => exact g
  | string text _ ih => exact .string text ih
  | function f _ ih => exact .function f ih

theorem Gains.extends {h h' : Heap} (g : Gains h h') : h.Extends h' := by
  induction g with
  | refl => exact Within.refl _
  | string text _ ih => exact ih.trans (extends_intern _ text)
  | function f _ ih => exact ih.trans (extends_allocate _ _)

theorem Extends.refl (h : Heap) : h.Extends h := Within.refl _

theorem Extends.get? {h h' : Heap} (e : h.Extends h') {r : Ref} {o : Object}
    (ho : h.get? r = some o) : h'.get? r = some o :=
  e ho

theorem Extends.string? {h h' : Heap} (e : h.Extends h') {r : Ref} {text : String}
    (hs : h.string? r = some text) : h'.string? r = some text := by
  unfold Heap.string? at hs ⊢
  split at hs
  next ho =>
    rw [e.get? ho]
    exact hs
  next => cases hs

theorem Extends.function? {h h' : Heap} (e : h.Extends h') {r : Ref} {f : Function}
    (hf : h.function? r = some f) : h'.function? r = some f := by
  unfold Heap.function? at hf ⊢
  split at hf
  next ho =>
    rw [e.get? ho]
    exact hf
  next => cases hf

theorem size_allocate (h : Heap) (o : Object) : (h.allocate o).1.size = h.size + 1 :=
  Array.size_push _

theorem index_ofIndex {i : Nat} (hi : i < UInt32.size) : (Ref.ofIndex i).index = i := by
  have : i < 4294967296 := hi
  simpa [Ref.ofIndex, Ref.index] using this

theorem index_allocate {h : Heap} {o : Object} (hs : h.size < UInt32.size) :
    (h.allocate o).2.index = h.size :=
  index_ofIndex hs

theorem get?_allocate {h : Heap} {o : Object} (hs : h.size < UInt32.size) :
    (h.allocate o).1.get? (h.allocate o).2 = some o := by
  rw [Heap.get?, index_allocate hs]
  exact Array.getElem?_push_size

/-- The handle of a new object is that of no other one. -/
theorem get?_allocate_none {h : Heap} {o : Object} (hs : h.size < UInt32.size) :
    h.get? (h.allocate o).2 = none := by
  rw [Heap.get?, index_allocate hs]
  exact Array.getElem?_eq_none (Nat.le_refl _)

/-- A new object is found on every heap that extends the one it was put on. -/
theorem Extends.get?_allocate {h h' : Heap} {o : Object} (e : (h.allocate o).1.Extends h')
    (hs : h'.size ≤ UInt32.size) : h'.get? (h.allocate o).2 = some o := by
  have larger : (h.allocate o).1.size ≤ h'.size := e.size_le
  rw [size_allocate] at larger
  exact e.get? (Heap.get?_allocate (by omega))

theorem Extends.function?_allocate {h h' : Heap} {f : Function}
    (e : (h.allocate (.function f)).1.Extends h') (hs : h'.size ≤ UInt32.size) :
    h'.function? (h.allocate (.function f)).2 = some f := by
  rw [Heap.function?, e.get?_allocate hs]

theorem string?_intern (h : Heap) (text : String)
    (hs : (h.intern text).1.size ≤ UInt32.size) :
    (h.intern text).1.string? (h.intern text).2 = some text := by
  unfold intern at hs ⊢
  split at hs
  next r hr =>
    simpa using List.find?_some hr
  next =>
    have hlt : h.size < UInt32.size := by
      have := h.size_allocate (.string text)
      have hs : (h.allocate (.string text)).1.size ≤ UInt32.size := hs
      omega
    have found : (h.allocate (.string text)).1.string? (h.allocate (.string text)).2 =
        some text := by
      rw [Heap.string?, get?_allocate hlt]
    exact found

end Heap

theorem Value.eq_of_beq_object {w : Value} {r : Ref} (h : (w == .object r) = true) :
    w = .object r := by
  cases w with
  | object r' =>
    have : r' = r := by simpa [BEq.beq, Value.equals] using h
    rw [this]
  | _ => cases h

end StackScript
