import StackScript.Proofs.Bytecode.Mirror
import StackScript.Proofs.Store.Directory

/-!
# StackScript.Proofs.Store.Matching

Two heaps whose objects belong together.

* `Setting`: which functions belong together, and where the code of one stands in that of the other.
* `Bridge.Same`: objects that do the same. `Bridge.Matches`: all objects that belong together do.
* `Bridge.Matches.allocate`, `intern`, `close`, `setElement`: what is done to both heaps.
* `Bridge.Matches.display`: values that stand for the same are shown in the same way.
-/

namespace StackScript

/-- How the functions of two heaps belong together. -/
structure Setting where
  /-- by how many lines the code of a near function is moved down in the far one -/
  shift : Ref → Nat
  /-- the near script, whose code is a part of that of the far one -/
  script : Ref
  /-- the far script -/
  host : Ref
  /-- where that part starts in the far script -/
  offset : Nat
  /-- the far functions that may belong to a near one -/
  known : Ref → Prop

namespace Setting

/-- Where the code of a near function starts in the far one. -/
def start (s : Setting) (r : Ref) : Nat := if r = s.script then s.offset else 0

/-- How many octets of a near function stand in the far one. The far script may go on where the last
two octets of the near one end it. -/
def limit (s : Setting) (r : Ref) (f : Function) : Nat :=
  if r = s.script then f.chunk.code.size - 2 else f.chunk.code.size

variable {s : Setting} {r : Ref} {f : Function}

theorem start_of_ne (h : r ≠ s.script) : s.start r = 0 := if_neg h

theorem limit_of_ne (h : r ≠ s.script) : s.limit r f = f.chunk.code.size := if_neg h

end Setting

namespace Bridge

theorem Refs.pairs_of_plain {b : Bridge} {r q : Ref} (h : b.Refs r q)
    (plain : b.near.string? r = none) : b.pairs r q := by
  cases h with
  | paired hp => exact hp
  | string hr _ =>
    rw [hr] at plain
    cases plain

/-- Objects other than strings that do the same. -/
inductive Same (s : Setting) (b : Bridge) (r q : Ref) : Object → Object → Prop where
  | function {f g : Function} : r ≠ s.script → s.known q →
      b.Functions (s.shift r) 0 f.chunk.code.size f g → Same s b r q (.function f) (.function g)
  | closure {c d : Closure} {f : Function} : b.near.function? c.function = some f →
      b.pairs c.function d.function →
      List.Forall₂ b.pairs c.upvalues.toList d.upvalues.toList →
      Same s b r q (.closure c) (.closure d)
  | opened {slot : Nat} : 0 < slot →
      Same s b r q (.upvalue (.opened slot)) (.upvalue (.opened slot))
  | closed {v w : Value} : b.Values v w →
      Same s b r q (.upvalue (.closed v)) (.upvalue (.closed w))
  | native (n : Native) : Same s b r q (.native n) (.native n)
  | array {xs ys : Array Value} : List.Forall₂ b.Values xs.toList ys.toList →
      Same s b r q (.array xs) (.array ys)

/-- What belongs together does the same, and nothing belongs together with two objects. -/
structure Matches (s : Setting) (b : Bridge) : Prop where
  unique : ∀ ⦃r q q'⦄, b.pairs r q → b.pairs r q' → q = q'
  injective : ∀ ⦃r r' q⦄, b.pairs r q → b.pairs r' q → r = r'
  near : b.near.Sound
  far : b.far.Sound
  objects : ∀ ⦃r q⦄, b.pairs r q → ∃ o p, b.near.get? r = some o ∧ b.far.get? q = some p ∧
    Same s b r q o p

variable {s : Setting} {b b' : Bridge} {r q : Ref} {v w : Value} {o p : Object}

namespace Same

theorem mono (h : Same s b r q o p) (hb : b.Below b') : Same s b' r q o p := by
  cases h with
  | function hr hq same => exact .function hr hq (same.mono hb)
  | closure hk hf hu => exact .closure (hb.near.function? hk) (hb.pairs hf) (hu.imp hb.pairs)
  | opened h => exact .opened h
  | closed h => exact .closed (hb.values h)
  | native n => exact .native n
  | array h => exact .array (h.imp fun _ _ => hb.values)

theorem plain (h : Same s b r q o p) : (∀ text, o ≠ .string text) ∧ ∀ text, p ≠ .string text := by
  cases h <;> simp

theorem kind (h : Same s b r q o p) : p.kind = o.kind := by
  cases h <;> rfl

end Same

namespace Matches

theorem faithful (h : Matches s b) : b.Faithful where
  unique := h.unique
  injective := h.injective
  near := h.near
  far := h.far
  plain r q hp := by
    obtain ⟨o, p, ho, hq, same⟩ := h.objects hp
    cases same <;> simp [Heap.string?, ho, hq]

section Read

/-- What handles that stand for the same stand for. -/
theorem get? (h : Matches s b) (hr : b.Refs r q) : ∃ o p, b.near.get? r = some o ∧
    b.far.get? q = some p ∧ (Same s b r q o p ∨ ∃ text, o = .string text ∧ p = .string text) := by
  cases hr with
  | paired hp =>
    obtain ⟨o, p, ho, hq, same⟩ := h.objects hp
    exact ⟨o, p, ho, hq, .inl same⟩
  | string hr hq =>
    exact ⟨_, _, Heap.string?_eq_some.1 hr, Heap.string?_eq_some.1 hq, .inr ⟨_, rfl, rfl⟩⟩

theorem function? (h : Matches s b) (hp : b.pairs r q) {f : Function}
    (hf : b.near.function? r = some f) : r ≠ s.script ∧ s.known q ∧
      ∃ g, b.far.function? q = some g ∧ b.Functions (s.shift r) 0 f.chunk.code.size f g := by
  obtain ⟨o, p, ho, hq, same⟩ := h.objects hp
  obtain rfl := Option.some.inj (ho.symm.trans (Heap.function?_eq_some.1 hf))
  cases same with
  | function hr known same => exact ⟨hr, known, _, Heap.function?_eq_some.2 hq, same⟩

/-- Functions that belong together, or neither is a function. -/
theorem function?_rel (h : Matches s b) (hp : b.pairs r q) : Option.Rel
    (fun f g => b.Functions (s.shift r) 0 f.chunk.code.size f g) (b.near.function? r)
      (b.far.function? q) := by
  obtain ⟨o, p, ho, hq, same⟩ := h.objects hp
  rw [Heap.function?, Heap.function?, ho, hq]
  cases same with
  | function _ _ same => exact .some same
  | _ => exact .none

/-- Closures that do the same. -/
structure Closures (b : Bridge) (c d : Closure) : Prop where
  known : ∃ f, b.near.function? c.function = some f
  function : b.pairs c.function d.function
  upvalues : List.Forall₂ b.pairs c.upvalues.toList d.upvalues.toList

theorem closure? (h : Matches s b) (hr : b.Refs r q) :
    Option.Rel (Closures b) (b.near.closure? r) (b.far.closure? q) := by
  obtain ⟨o, p, ho, hq, same | ⟨text, rfl, rfl⟩⟩ := h.get? hr <;>
    rw [Heap.closure?, Heap.closure?, ho, hq]
  · cases same with
    | closure hk hf hu => exact .some ⟨⟨_, hk⟩, hf, hu⟩
    | _ => exact .none
  · exact .none

theorem array? (h : Matches s b) (hr : b.Refs r q) :
    Option.Rel (fun xs ys : Array Value => List.Forall₂ b.Values xs.toList ys.toList)
      (b.near.array? r) (b.far.array? q) := by
  obtain ⟨o, p, ho, hq, same | ⟨text, rfl, rfl⟩⟩ := h.get? hr <;>
    rw [Heap.array?, Heap.array?, ho, hq]
  · cases same with
    | array hs => exact .some hs
    | _ => exact .none
  · exact .none

theorem native? (h : Matches s b) (hr : b.Refs r q) : b.far.native? q = b.near.native? r := by
  obtain ⟨o, p, ho, hq, same | ⟨text, rfl, rfl⟩⟩ := h.get? hr <;>
    rw [Heap.native?, Heap.native?, ho, hq]
  cases same <;> rfl

/-- Upvalues that do the same. -/
inductive Upvalues (b : Bridge) : Upvalue → Upvalue → Prop where
  | opened {slot : Nat} : 0 < slot → Upvalues b (.opened slot) (.opened slot)
  | closed {v w : Value} : b.Values v w → Upvalues b (.closed v) (.closed w)

theorem upvalue? (h : Matches s b) (hp : b.pairs r q) :
    Option.Rel (Upvalues b) (b.near.upvalue? r) (b.far.upvalue? q) := by
  obtain ⟨o, p, ho, hq, same⟩ := h.objects hp
  rw [Heap.upvalue?, Heap.upvalue?, ho, hq]
  cases same with
  | opened hs => exact .some (.opened hs)
  | closed hv => exact .some (.closed hv)
  | _ => exact .none

theorem typeName (h : Matches s b) (hv : b.Values v w) : b.far.typeName w = b.near.typeName v := by
  cases hv with
  | object hr =>
    obtain ⟨o, p, ho, hq, same | ⟨text, rfl, rfl⟩⟩ := h.get? hr <;>
      simp only [Heap.typeName, Value.ref?, Option.bind_some, ho, hq]
    exact same.kind
  | _ => rfl

end Read

section Display

theorem displayFunction {shift start limit : Nat} {f g : Function}
    (h : b.Functions shift start limit f g) :
    b.far.displayFunction g = b.near.displayFunction f := by
  have names := h.name
  unfold Heap.displayFunction
  generalize f.name = name at names
  generalize g.name = name' at names
  cases names with
  | none => rfl
  | some hr hq => simp [hr, hq]

theorem displayUpTo_closure (h : Matches s b) {levels : Nat} {c d : Closure}
    (ho : b.near.get? r = some (.closure c)) (hq : b.far.get? q = some (.closure d))
    (hp : b.pairs c.function d.function) :
    b.far.displayUpTo levels (.object q) = b.near.displayUpTo levels (.object r) := by
  have functions := h.function?_rel hp
  simp only [Heap.displayUpTo, ho, hq]
  generalize b.near.function? c.function = f at functions
  generalize b.far.function? d.function = g at functions
  cases functions with
  | none => rfl
  | some same => exact displayFunction same

/-- What is shown, given how arrays are. -/
theorem displayUpTo_of (h : Matches s b) {levels : Nat} (arrays : ∀ r q xs ys,
    b.near.get? r = some (.array xs) → b.far.get? q = some (.array ys) →
    List.Forall₂ b.Values xs.toList ys.toList →
    b.far.displayUpTo levels (.object q) = b.near.displayUpTo levels (.object r))
    (hv : b.Values v w) : b.far.displayUpTo levels w = b.near.displayUpTo levels v := by
  cases hv with
  | object hr =>
    obtain ⟨o, p, ho, hq, same | ⟨text, rfl, rfl⟩⟩ := h.get? hr
    · cases same with
      | function _ _ same => simp only [Heap.displayUpTo, ho, hq, displayFunction same]
      | closure _ hf _ => exact h.displayUpTo_closure ho hq hf
      | array hs => exact arrays _ _ _ _ ho hq hs
      | _ => simp only [Heap.displayUpTo, ho, hq]
    · simp only [Heap.displayUpTo, ho, hq]
  | _ => simp only [Heap.displayUpTo]

theorem displayUpTo (h : Matches s b) (levels : Nat) : ∀ {v w : Value}, b.Values v w →
    b.far.displayUpTo levels w = b.near.displayUpTo levels v := by
  induction levels with
  | zero =>
    intro v w hv
    refine h.displayUpTo_of (fun r q xs ys ho hq _ => ?_) hv
    simp only [Heap.displayUpTo, ho, hq]
  | succ levels ih =>
    intro v w hv
    refine h.displayUpTo_of (fun r q xs ys ho hq hs => ?_) hv
    simp only [Heap.displayUpTo, ho, hq, forall₂_map_eq hs fun _ _ => ih]

/-- Values that stand for the same are shown in the same way. -/
theorem display (h : Matches s b) (hv : b.Values v w) : b.far.display w = b.near.display v :=
  h.displayUpTo _ hv

end Display

section Change

variable {near far : Heap}

/-- Both heaps get more objects that do not belong together. -/
theorem extend (h : Matches s b) (en : b.near.Extends near) (ef : b.far.Extends far)
    (sound : near.Sound) (sound' : far.Sound) :
    b.Below ⟨b.pairs, near, far⟩ ∧ Matches s ⟨b.pairs, near, far⟩ := by
  have below : b.Below ⟨b.pairs, near, far⟩ := ⟨fun _ _ => id, en.kept, ef.kept⟩
  refine ⟨below, h.unique, h.injective, sound, sound', fun r q hp => ?_⟩
  obtain ⟨o, p, ho, hq, same⟩ := h.objects hp
  exact ⟨o, p, en.get? ho, ef.get? hq, same.mono below⟩

/-- A text is put on both heaps. -/
theorem intern (h : Matches s b) (text : String) (room : (b.near.intern text).1.size ≤ UInt32.size)
    (room' : (b.far.intern text).1.size ≤ UInt32.size) :
    ∃ b', b.Below b' ∧ Matches s b' ∧ b'.near = (b.near.intern text).1 ∧
      b'.far = (b.far.intern text).1 ∧
      b'.Refs (b.near.intern text).2 (b.far.intern text).2 := by
  obtain ⟨below, matched⟩ := h.extend (b.near.extends_intern text) (b.far.extends_intern text)
    (h.near.intern room) (h.far.intern room')
  exact ⟨_, below, matched, rfl, rfl, .string (b.near.string?_intern text room)
    (b.far.string?_intern text room')⟩

theorem index_lt {h : Heap} {r : Ref} {o : Object} (ho : h.get? r = some o) : r.index < h.size :=
  (Array.getElem?_eq_some_iff.1 ho).1

/-- Objects that do the same are put on both heaps. -/
theorem allocate (h : Matches s b) (same : ∀ r q, Same s b r q o p)
    (room : (b.near.allocate o).1.size ≤ UInt32.size)
    (room' : (b.far.allocate p).1.size ≤ UInt32.size) :
    ∃ b', b.Below b' ∧ Matches s b' ∧ b'.near = (b.near.allocate o).1 ∧
      b'.far = (b.far.allocate p).1 ∧ b'.pairs (b.near.allocate o).2 (b.far.allocate p).2 := by
  obtain ⟨plain, plain'⟩ := (same ⟨0⟩ ⟨0⟩).plain
  have en := b.near.extends_allocate o
  have ef := b.far.extends_allocate p
  have found := (Heap.Extends.refl _).get?_allocate (h := b.near) (o := o) room
  have found' := (Heap.Extends.refl _).get?_allocate (h := b.far) (o := p) room'
  rw [Heap.size_allocate] at room room'
  have hr : (b.near.allocate o).2.index = b.near.size := Heap.index_ofIndex room
  have hq : (b.far.allocate p).2.index = b.far.size := Heap.index_ofIndex room'
  have old {r q : Ref} (hp : b.pairs r q) :
      r ≠ (b.near.allocate o).2 ∧ q ≠ (b.far.allocate p).2 := by
    obtain ⟨o', p', ho, hq', -⟩ := h.objects hp
    have lt := index_lt ho
    have lt' := index_lt hq'
    exact ⟨fun e => by rw [e] at lt; omega, fun e => by rw [e] at lt'; omega⟩
  have below : b.Below ⟨fun r q => b.pairs r q ∨ (r = (b.near.allocate o).2 ∧
      q = (b.far.allocate p).2), (b.near.allocate o).1, (b.far.allocate p).1⟩ :=
    ⟨fun _ _ => .inl, en.kept, ef.kept⟩
  refine ⟨_, below, ⟨?_, ?_, h.near.allocate plain, h.far.allocate plain', ?_⟩, rfl, rfl,
    .inr ⟨rfl, rfl⟩⟩
  · rintro r q₁ q₂ (hp | ⟨rfl, rfl⟩) (hp' | ⟨e, rfl⟩)
    · exact h.unique hp hp'
    · exact absurd e (old hp).1
    · exact absurd rfl (old hp').1
    · rfl
  · rintro r₁ r₂ q (hp | ⟨rfl, rfl⟩) (hp' | ⟨rfl, e⟩)
    · exact h.injective hp hp'
    · exact absurd e (old hp).2
    · exact absurd rfl (old hp').2
    · rfl
  · rintro r q (hp | ⟨rfl, rfl⟩)
    · obtain ⟨o', p', ho, hq', same'⟩ := h.objects hp
      exact ⟨o', p', en.get? ho, ef.get? hq', same'.mono below⟩
    · exact ⟨o, p, found, found', (same _ _).mono below⟩

/-- Objects that belong together are replaced by others that do the same. -/
theorem replace (h : Matches s b) (hp : b.pairs r q) (kept : b.near.Kept near)
    (kept' : b.far.Kept far) (sound : near.Sound) (sound' : far.Sound)
    (ho : near.get? r = some o) (hq : far.get? q = some p) (same : Same s b r q o p)
    (others : ∀ r', r' ≠ r → near.get? r' = b.near.get? r')
    (others' : ∀ q', q' ≠ q → far.get? q' = b.far.get? q') :
    b.Below ⟨b.pairs, near, far⟩ ∧ Matches s ⟨b.pairs, near, far⟩ := by
  have below : b.Below ⟨b.pairs, near, far⟩ := ⟨fun _ _ => id, kept, kept'⟩
  refine ⟨below, h.unique, h.injective, sound, sound', fun r' q' hp' => ?_⟩
  by_cases e : r' = r
  · subst e
    obtain rfl := h.unique hp hp'
    exact ⟨o, p, ho, hq, same.mono below⟩
  · have e' : q' ≠ q := fun e' => e (h.injective (e' ▸ hp') hp)
    obtain ⟨o', p', ho', hq', same'⟩ := h.objects hp'
    exact ⟨o', p', (others r' e).trans ho', (others' q' e').trans hq', same'.mono below⟩

/-- An upvalue gets another value on both heaps. -/
theorem close (h : Matches s b) (hp : b.pairs r q) {u u' : Upvalue}
    (hu : b.near.upvalue? r = some u) (hu' : b.far.upvalue? q = some u') (hv : b.Values v w) :
    ∃ b', b.Below b' ∧ Matches s b' ∧ b'.near = b.near.set r (.upvalue (.closed v)) ∧
      b'.far = b.far.set q (.upvalue (.closed w)) := by
  have changed (r' : Ref) : (b.near.set r (.upvalue (.closed v))).get? r' =
      if r = r' then some (.upvalue (.closed v)) else b.near.get? r' := Heap.get?_set_upvalue hu
  have changed' (q' : Ref) : (b.far.set q (.upvalue (.closed w))).get? q' =
      if q = q' then some (.upvalue (.closed w)) else b.far.get? q' := Heap.get?_set_upvalue hu'
  obtain ⟨below, matched⟩ := h.replace hp (Heap.kept_set (v := v) hu) (Heap.kept_set (v := w) hu')
    (h.near.congr rfl fun _ => Heap.string?_set hu) (h.far.congr rfl fun _ => Heap.string?_set hu')
    ((changed r).trans (if_pos rfl)) ((changed' q).trans (if_pos rfl)) (.closed hv)
    (fun r' ne => (changed r').trans (if_neg ne.symm))
    fun q' ne => (changed' q').trans (if_neg ne.symm)
  exact ⟨_, below, matched, rfl, rfl⟩

/-- An element of an array is replaced on both heaps. -/
theorem setElement (h : Matches s b) (hp : b.pairs r q) {xs ys : Array Value} (i : Nat)
    (hx : b.near.array? r = some xs) (hy : b.far.array? q = some ys)
    (same : List.Forall₂ b.Values xs.toList ys.toList) (hv : b.Values v w) :
    ∃ b', b.Below b' ∧ Matches s b' ∧ b'.near = b.near.setElement r i v ∧
      b'.far = b.far.setElement q i w := by
  have found : (b.near.setElement r i v).array? r = some (xs.setIfInBounds i v) := by
    rw [Heap.array?_setElement, if_pos rfl, hx]
    rfl
  have found' : (b.far.setElement q i w).array? q = some (ys.setIfInBounds i w) := by
    rw [Heap.array?_setElement, if_pos rfl, hy]
    rfl
  have elements : List.Forall₂ b.Values (xs.setIfInBounds i v).toList
      (ys.setIfInBounds i w).toList := by
    rw [Array.toList_setIfInBounds, Array.toList_setIfInBounds]
    exact forall₂_set same hv i
  obtain ⟨below, matched⟩ := h.replace hp (b.near.kept_setElement r i v)
    (b.far.kept_setElement q i w) (h.near.congr rfl fun _ => Heap.string?_setElement)
    (h.far.congr rfl fun _ => Heap.string?_setElement) (Heap.array?_eq_some.1 found)
    (Heap.array?_eq_some.1 found') (.array elements)
    (fun r' ne => Heap.get?_setElement_ne ne i v) fun q' ne => Heap.get?_setElement_ne ne i w
  exact ⟨_, below, matched, rfl, rfl⟩

end Change
end Matches
end Bridge
end StackScript
