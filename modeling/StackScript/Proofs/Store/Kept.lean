import StackScript.Proofs.Store.Heap

/-!
# StackScript.Proofs.Store.Kept

What a run may change on a heap: upvalues and the elements of arrays. Everything else that was put
there stays as it is.

* `Heap.Kept`: a heap later in a run.
* `Heap.Onward`: a heap behind the changes that instructions make, one after the other.
* `Heap.Limits`: no function is new.
* `Heap.get?_set`, `Heap.get?_allocate_cases`: what changing and adding one object does to the
  others.
-/

namespace StackScript

theorem Ref.index_inj {r r' : Ref} (h : r.index = r'.index) : r = r' := by
  cases r
  cases r'
  exact congrArg Ref.mk (UInt32.toNat_inj.1 h)

/-- What an object may be later in a run. An upvalue that is closed is never opened again. -/
inductive Object.Becomes : Object → Object → Prop where
  | same (o : Object) : Becomes o o
  | closed (u : Upvalue) (v : Value) : Becomes (.upvalue u) (.upvalue (.closed v))
  | array (xs ys : Array Value) : Becomes (.array xs) (.array ys)

theorem Object.Becomes.trans {a b c : Object} (h : a.Becomes b) (h' : b.Becomes c) :
    a.Becomes c := by
  cases h with
  | same => exact h'
  | closed =>
    cases h' with
    | same => exact .closed _ _
    | closed => exact .closed _ _
  | array =>
    cases h' with
    | same => exact .array _ _
    | array => exact .array _ _

namespace Heap

section Accessors

variable {h : Heap} {r : Ref}

theorem string?_eq_some {text : String} :
    h.string? r = some text ↔ h.get? r = some (.string text) := by
  unfold string?
  split <;> simp_all

theorem function?_eq_some {f : Function} :
    h.function? r = some f ↔ h.get? r = some (.function f) := by
  unfold function?
  split <;> simp_all

theorem closure?_eq_some {c : Closure} :
    h.closure? r = some c ↔ h.get? r = some (.closure c) := by
  unfold closure?
  split <;> simp_all

theorem upvalue?_eq_some {u : Upvalue} :
    h.upvalue? r = some u ↔ h.get? r = some (.upvalue u) := by
  unfold upvalue?
  split <;> simp_all

theorem native?_eq_some {n : Native} :
    h.native? r = some n ↔ h.get? r = some (.native n) := by
  unfold native?
  split <;> simp_all

theorem array?_eq_some {xs : Array Value} :
    h.array? r = some xs ↔ h.get? r = some (.array xs) := by
  unfold array?
  split <;> simp_all

end Accessors

/-- All objects of a heap are on another one, where upvalues and arrays may have changed. -/
def Kept (h h' : Heap) : Prop :=
  ∀ ⦃r : Ref⦄ ⦃o : Object⦄, h.get? r = some o → ∃ o', h'.get? r = some o' ∧ o.Becomes o'

namespace Kept

variable {h h₁ h' : Heap} {r : Ref}

theorem refl (h : Heap) : Kept h h := fun _ o ho => ⟨o, ho, .same o⟩

theorem trans (k : Kept h h₁) (k' : Kept h₁ h') : Kept h h' := by
  intro r o ho
  obtain ⟨o₁, h₁, b⟩ := k ho
  obtain ⟨o', h', b'⟩ := k' h₁
  exact ⟨o', h', b.trans b'⟩

theorem string? (k : Kept h h') {text : String} (hr : h.string? r = some text) :
    h'.string? r = some text := by
  obtain ⟨o, ho, b⟩ := k (string?_eq_some.1 hr)
  cases b
  exact string?_eq_some.2 ho

theorem function? (k : Kept h h') {f : Function} (hr : h.function? r = some f) :
    h'.function? r = some f := by
  obtain ⟨o, ho, b⟩ := k (function?_eq_some.1 hr)
  cases b
  exact function?_eq_some.2 ho

theorem closure? (k : Kept h h') {c : Closure} (hr : h.closure? r = some c) :
    h'.closure? r = some c := by
  obtain ⟨o, ho, b⟩ := k (closure?_eq_some.1 hr)
  cases b
  exact closure?_eq_some.2 ho

theorem native? (k : Kept h h') {n : Native} (hr : h.native? r = some n) :
    h'.native? r = some n := by
  obtain ⟨o, ho, b⟩ := k (native?_eq_some.1 hr)
  cases b
  exact native?_eq_some.2 ho

theorem upvalue? (k : Kept h h') {u : Upvalue} (hr : h.upvalue? r = some u) :
    ∃ u', h'.upvalue? r = some u' ∧ (u' = u ∨ ∃ v, u' = .closed v) := by
  obtain ⟨o, ho, b⟩ := k (upvalue?_eq_some.1 hr)
  cases b with
  | same => exact ⟨u, upvalue?_eq_some.2 ho, .inl rfl⟩
  | closed _ v => exact ⟨.closed v, upvalue?_eq_some.2 ho, .inr ⟨v, rfl⟩⟩

end Kept

theorem Extends.kept {h h' : Heap} (e : h.Extends h') : h.Kept h' :=
  fun _ o ho => ⟨o, e.get? ho, .same o⟩

theorem get?_allocate_cases {h : Heap} {o o' : Object} {r : Ref}
    (hr : (h.allocate o).1.get? r = some o') :
    h.get? r = some o' ∨ (o' = o ∧ r.index = h.size) := by
  simp only [get?, allocate, Array.getElem?_push] at hr
  split at hr
  next hi => exact .inr ⟨(Option.some.inj hr).symm, hi⟩
  next => exact .inl hr

theorem get?_intern_cases {h : Heap} {text : String} {o : Object} {r : Ref}
    (hr : (h.intern text).1.get? r = some o) : h.get? r = some o ∨ o = .string text := by
  unfold intern at hr
  split at hr
  next => exact .inl hr
  next =>
    obtain old | ⟨e, -⟩ := get?_allocate_cases (h := h) (o := .string text) hr
    · exact .inl old
    · exact .inr e

theorem ref_allocate {h : Heap} {o : Object} {r : Ref} (hs : h.size < UInt32.size)
    (hr : r.index = h.size) : r = (h.allocate o).2 :=
  Ref.index_inj (hr.trans (index_allocate hs).symm)

theorem size_set (h : Heap) (r : Ref) (o : Object) : (h.set r o).size = h.size :=
  Array.size_setIfInBounds

theorem get?_set {h : Heap} {r r' : Ref} {o : Object} (hr : (h.get? r).isSome) :
    (h.set r o).get? r' = if r = r' then some o else h.get? r' := by
  obtain ⟨o', ho⟩ := Option.isSome_iff_exists.1 hr
  obtain ⟨inside, -⟩ := Array.getElem?_eq_some_iff.1 ho
  simp only [get?, set, Array.getElem?_setIfInBounds]
  by_cases e : r = r'
  · subst e
    simp [inside]
  · rw [if_neg fun h => e (Ref.index_inj h), if_neg e]

theorem kept_set {h : Heap} {r : Ref} {u : Upvalue} {v : Value} (hr : h.upvalue? r = some u) :
    h.Kept (h.set r (.upvalue (.closed v))) := by
  have hr := upvalue?_eq_some.1 hr
  intro r' o ho
  rw [get?_set (by rw [hr]; rfl)]
  split
  next e =>
    subst e
    obtain rfl := Option.some.inj (hr.symm.trans ho)
    exact ⟨_, rfl, .closed u v⟩
  next => exact ⟨o, ho, .same o⟩

section SetUpvalue

variable {h : Heap} {r r' : Ref} {u u' : Upvalue}

theorem get?_set_upvalue (hr : h.upvalue? r = some u) :
    (h.set r (.upvalue u')).get? r' = if r = r' then some (.upvalue u') else h.get? r' :=
  get?_set (by rw [upvalue?_eq_some.1 hr]; rfl)

theorem upvalue?_set (hr : h.upvalue? r = some u) :
    (h.set r (.upvalue u')).upvalue? r' = if r = r' then some u' else h.upvalue? r' := by
  rw [upvalue?, get?_set_upvalue hr]
  by_cases e : r = r'
  · rw [if_pos e, if_pos e]
  · rw [if_neg e, if_neg e]
    rfl

theorem closure?_set (hr : h.upvalue? r = some u) :
    (h.set r (.upvalue u')).closure? r' = h.closure? r' := by
  rw [closure?, get?_set_upvalue hr]
  by_cases e : r = r'
  · subst e
    rw [if_pos rfl, closure?, upvalue?_eq_some.1 hr]
  · rw [if_neg e]
    rfl

end SetUpvalue

theorem size_setElement (h : Heap) (r : Ref) (i : Nat) (v : Value) :
    (h.setElement r i v).size = h.size :=
  Array.size_modify

theorem get?_setElement {h : Heap} {r r' : Ref} {i : Nat} {v : Value} {o : Object}
    (ho : (h.setElement r i v).get? r' = some o) :
    h.get? r' = some o ∨ ∃ xs ys, o = .array ys ∧ h.get? r' = some (.array xs) := by
  simp only [get?, setElement, Array.getElem?_modify] at ho ⊢
  split at ho
  next =>
    obtain ⟨o', ho', e⟩ := Option.map_eq_some_iff.1 ho
    split at e
    next xs => exact .inr ⟨xs, _, e.symm, ho'⟩
    next => exact .inl (e ▸ ho')
  next => exact .inl ho

theorem array?_setElement (h : Heap) (r r' : Ref) (i : Nat) (v : Value) :
    (h.setElement r i v).array? r' =
      if r = r' then (h.array? r').map (·.setIfInBounds i v) else h.array? r' := by
  simp only [array?, get?, setElement, Array.getElem?_modify]
  by_cases e : r = r'
  · subst e
    simp only [if_true]
    cases h.objects[r.index]? with
    | none => rfl
    | some o => cases o <;> rfl
  · rw [if_neg fun i => e (Ref.index_inj i), if_neg e]

theorem get?_setElement_ne {h : Heap} {r r' : Ref} (ne : r' ≠ r) (i : Nat) (v : Value) :
    (h.setElement r i v).get? r' = h.get? r' := by
  simp only [get?, setElement, Array.getElem?_modify]
  exact if_neg fun e => ne (Ref.index_inj e).symm

theorem kept_setElement (h : Heap) (r : Ref) (i : Nat) (v : Value) :
    h.Kept (h.setElement r i v) := by
  intro r' o ho
  simp only [get?, setElement, Array.getElem?_modify] at ho ⊢
  split
  next =>
    rw [ho]
    cases o with
    | array xs => exact ⟨_, rfl, .array _ _⟩
    | _ => exact ⟨_, rfl, .same _⟩
  next => exact ⟨o, ho, .same o⟩

/-- A heap after the changes that instructions make: new objects that are no natives, upvalues that
are closed, elements of arrays that are replaced. -/
inductive Onward (h : Heap) : Heap → Prop where
  | refl : Onward h h
  | allocate {h' : Heap} {o : Object} (native : ∀ n, o ≠ .native n)
      (string : ∀ text, o ≠ .string text) : Onward h h' → Onward h (h'.allocate o).1
  | intern {h' : Heap} (text : String) : Onward h h' → Onward h (h'.intern text).1
  | close {h' : Heap} {r : Ref} {u : Upvalue} (v : Value) (hr : h'.upvalue? r = some u) :
    Onward h h' → Onward h (h'.set r (.upvalue (.closed v)))
  | setElement {h' : Heap} (r : Ref) (i : Nat) (v : Value) :
    Onward h h' → Onward h (h'.setElement r i v)

namespace Onward

variable {h h₁ h' : Heap}

theorem trans (o : Onward h h₁) (o' : Onward h₁ h') : Onward h h' := by
  induction o' with
  | refl => exact o
  | allocate native string _ ih => exact .allocate native string ih
  | intern text _ ih => exact .intern text ih
  | close v hr _ ih => exact .close v hr ih
  | setElement r i v _ ih => exact .setElement r i v ih

theorem size_le (o : Onward h h') : h.size ≤ h'.size := by
  induction o with
  | refl => exact Nat.le_refl _
  | allocate _ _ _ ih => exact Nat.le_trans ih (extends_allocate _ _).size_le
  | intern text _ ih => exact Nat.le_trans ih (extends_intern _ text).size_le
  | close v _ _ ih => exact Nat.le_trans ih (Nat.le_of_eq (size_set ..).symm)
  | setElement r i v _ ih => exact Nat.le_trans ih (Nat.le_of_eq (size_setElement ..).symm)

theorem kept (o : Onward h h') : h.Kept h' := by
  induction o with
  | refl => exact .refl h
  | allocate _ _ _ ih => exact ih.trans (extends_allocate _ _).kept
  | intern text _ ih => exact ih.trans (extends_intern _ text).kept
  | close v hr _ ih => exact ih.trans (kept_set hr)
  | setElement r i v _ ih => exact ih.trans (kept_setElement _ r i v)

/-- No native is new. -/
theorem natives (o : Onward h h') {r : Ref} {n : Native} (hn : h'.native? r = some n) :
    h.native? r = some n := by
  induction o with
  | refl => exact hn
  | allocate native _ _ ih =>
    obtain old | ⟨e, -⟩ := get?_allocate_cases (native?_eq_some.1 hn)
    · exact ih (native?_eq_some.2 old)
    · exact (native n e.symm).elim
  | intern text _ ih =>
    obtain old | e := get?_intern_cases (native?_eq_some.1 hn)
    · exact ih (native?_eq_some.2 old)
    · cases e
  | close v hr _ ih =>
    refine ih (native?_eq_some.2 ?_)
    have hn := native?_eq_some.1 hn
    rw [get?_set_upvalue hr] at hn
    split at hn
    next => cases hn
    next => exact hn
  | setElement r i v _ ih =>
    obtain old | ⟨_, _, e, -⟩ := get?_setElement (native?_eq_some.1 hn)
    · exact ih (native?_eq_some.2 old)
    · cases e

end Onward

theorem Gains.onward {h h' : Heap} (g : h.Gains h') : h.Onward h' := by
  induction g with
  | refl => exact .refl
  | string text _ ih => exact .intern text ih
  | function f _ ih => exact .allocate nofun nofun ih

/-- No function is new on the second heap. -/
def Limits (h h' : Heap) : Prop :=
  ∀ (i : Nat) (f : Function), h'.objects[i]? = some (.function f) →
    h.objects[i]? = some (.function f)

theorem Limits.refl (h : Heap) : h.Limits h := fun _ _ => id

theorem Limits.trans {a b c : Heap} (h : a.Limits b) (h' : b.Limits c) : a.Limits c :=
  fun i f hf => h i f (h' i f hf)

section Limits

variable (h : Heap)

theorem limits_allocate {o : Object} (ho : ∀ f, o ≠ .function f) :
    h.Limits (h.allocate o).1 := by
  intro i f hf
  simp only [allocate, Array.getElem?_push] at hf
  split at hf
  next => exact (ho f (Option.some.inj hf)).elim
  next => exact hf

theorem limits_intern (text : String) : h.Limits (h.intern text).1 := by
  unfold intern
  split
  · exact .refl h
  · exact h.limits_allocate nofun

theorem limits_set (r : Ref) (u : Upvalue) : h.Limits (h.set r (.upvalue u)) := by
  intro i f hf
  simp only [set, Array.getElem?_setIfInBounds] at hf
  split at hf
  next =>
    split at hf <;> cases hf
  next => exact hf

theorem limits_setElement (r : Ref) (i : Nat) (v : Value) : h.Limits (h.setElement r i v) := by
  intro k f hf
  simp only [setElement, Array.getElem?_modify] at hf
  split at hf
  next =>
    obtain ⟨o, ho, e⟩ := Option.map_eq_some_iff.1 hf
    split at e
    next => cases e
    next => exact e ▸ ho
  next => exact hf

end Limits
end Heap
end StackScript
