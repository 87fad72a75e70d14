import StackScript.Proofs.Semantics.Celled

/-!
# StackScript.Proofs.Semantics.Backed

Arrays, closures and globals, and what they have on the heap.

* `Heap.Calm`: a heap later on, on which nothing but upvalues has changed.
* `Backed.calm`: what is on the heap stays there. `Backed.newArray`, `Backed.newClosure`,
  `Backed.setElement`, `Backed.define`: it is changed as the store is.
* `Same.equals`: values are equal in the language if they are equal on the machine.
-/

namespace StackScript

theorem Heap.get?_fresh {h : Heap} {o : Object} (fits : (h.allocate o).1.size ≤ UInt32.size) :
    h.get? (h.allocate o).2 = none := by
  rw [size_allocate] at fits
  exact get?_allocate_none fits

/-- A heap later on with the arrays as they were, and without new natives. -/
structure Heap.Calm (h h' : Heap) : Prop where
  kept : h.Kept h'
  lasts : h.Lasts h'
  array : ∀ r xs, h.array? r = some xs → h'.array? r = some xs
  native : ∀ r n, h'.native? r = some n → h.native? r = some n

namespace Heap.Calm

variable {h h₁ h' : Heap}

theorem refl (h : Heap) : h.Calm h := ⟨.refl h, .refl h, fun _ _ => id, fun _ _ => id⟩

theorem trans (c : h.Calm h₁) (c' : h₁.Calm h') : h.Calm h' where
  kept := c.kept.trans c'.kept
  lasts := c.lasts.trans c'.lasts
  array r xs hr := c'.array r xs (c.array r xs hr)
  native r n hr := c.native r n (c'.native r n hr)

theorem allocate (h : Heap) {o : Object} (native : ∀ n, o ≠ .native n)
    (string : ∀ text, o ≠ .string text) : h.Calm (h.allocate o).1 where
  kept := (extends_allocate h o).kept
  lasts := .allocate h string
  array _ _ hr := array?_eq_some.2 ((extends_allocate h o).get? (array?_eq_some.1 hr))
  native _ _ := (Onward.allocate native string .refl).natives

theorem intern (h : Heap) (text : String) : h.Calm (h.intern text).1 where
  kept := (extends_intern h text).kept
  lasts := .intern h text
  array _ _ hr := array?_eq_some.2 ((extends_intern h text).get? (array?_eq_some.1 hr))
  native _ _ := (Onward.intern text .refl).natives

theorem set {r : Ref} {u : Upvalue} (hr : h.upvalue? r = some u) (v : Value) :
    h.Calm (h.set r (.upvalue (.closed v))) where
  kept := kept_set hr
  lasts := .set hr _
  array r' xs hr' := by
    rw [array?_eq_some, get?_set_upvalue hr]
    split
    next e =>
      subst e
      cases (upvalue?_eq_some.1 hr).symm.trans (array?_eq_some.1 hr')
    next => exact array?_eq_some.1 hr'
  native _ _ := (Onward.close v hr .refl).natives

theorem closeFrom (least : Nat) (stack : Array Value) (opens : List Ref) :
    ∀ h : Heap, h.Calm (Machine.closeFrom least stack h opens).1 := by
  induction opens with
  | nil => exact refl
  | cons r opens ih =>
    intro h
    rw [Machine.closeFrom]
    cases hr : h.upvalue? r with
    | none => exact ih h
    | some u =>
      cases u with
      | closed v => exact ih h
      | opened slot =>
        dsimp only
        split
        · exact refl h
        · exact (set hr _).trans (ih _)

end Heap.Calm

namespace Semantics

variable {H : Heap} {τ τ' : Ties} {s : Store} {t : Table Value} {h h' : Heap}

section Stored

variable {arrays : Array (Array Val)} {closures : Array Lambda}

theorem Stored.array (d : Stored H τ arrays closures h) {id : Nat} {r : Ref}
    (hr : τ.arrays[id]? = some r) : ∃ xs ys, arrays[id]? = some xs ∧ h.array? r = some ys ∧
      List.Forall₂ (Same τ h) xs.toList ys.toList := by
  obtain ⟨xs, hxs, ys, hys, each⟩ := forall₂_getElem? d.arrays.flip hr
  exact ⟨xs, ys, by rwa [← Array.getElem?_toList], hys, each⟩

theorem Stored.closure (d : Stored H τ arrays closures h) {id : Nat} {r : Ref}
    (hr : τ.closures[id]? = some r) : ∃ f k g chain ls, closures[id]? = some f ∧
      h.closure? r = some k ∧ Realizes H τ f k g chain ls := by
  obtain ⟨f, hf, k, g, chain, ls, hk, realizes⟩ := forall₂_getElem? d.closures.flip hr
  exact ⟨f, k, g, chain, ls, by rwa [← Array.getElem?_toList], hk, realizes⟩

theorem Stored.later (d : Stored H τ arrays closures h) (l : Later τ h τ' h')
    (same : τ'.arrays = τ.arrays) (same' : τ'.closures = τ.closures)
    (array : ∀ r xs, h.array? r = some xs → h'.array? r = some xs) :
    Stored H τ' arrays closures h' where
  arrays := by
    rw [same]
    refine d.arrays.imp fun xs r ⟨ys, hys, each⟩ => ⟨ys, array r ys hys, ?_⟩
    exact each.imp fun _ _ s => s.later l
  arrayOnce := same ▸ d.arrayOnce
  closures := by
    rw [same']
    refine d.closures.imp fun f r ⟨k, g, chain, ls, hk, realizes⟩ => ?_
    exact ⟨k, g, chain, ls, l.kept.closure? hk, realizes.le l.ties⟩
  closureOnce := same' ▸ d.closureOnce

end Stored

theorem Listed.later {globals : String → Option Val} (d : Listed τ globals t h)
    (l : Later τ h τ' h') (lasts : h.Lasts h') (fits : h'.size ≤ UInt32.size) :
    Listed τ' globals t h' where
  sound := lasts.sound d.sound fits
  directory := by
    obtain ⟨e, g, f, each⟩ := d.directory
    exact ⟨e, g, f.lasts lasts (lasts.sound d.sound fits), fun name => Same.later_rel (each name) l⟩

/-- Nothing but upvalues has changed on the heap. -/
theorem Backed.calm (b : Backed H τ s t h) (calm : h.Calm h') (le : τ.Le τ')
    (same : τ'.arrays = τ.arrays) (same' : τ'.closures = τ.closures)
    (fits : h'.size ≤ UInt32.size) : Backed H τ' s t h' where
  stored := b.stored.later ⟨le, calm.kept⟩ same same' calm.array
  listed := b.listed.later ⟨le, calm.kept⟩ calm.lasts fits
  unshared r r' n hr hr' := b.unshared r r' n (calm.native r n hr) (calm.native r' n hr')
  kept := b.kept.trans calm.kept

/-- Only arrays, closures and globals matter. -/
theorem Backed.cells (b : Backed H τ s t h) (cells : Array Val) :
    Backed H τ { s with cells } t h :=
  ⟨b.stored, b.listed, b.unshared, b.kept⟩

section Same

variable {v v' : Val} {w w' : Value} {r : Ref}

theorem Same.typeName (b : Backed H τ s t h) (e : Same τ h v w) : h.typeName w = v.typeName := by
  cases e with
  | nil | bool | number => rfl
  | string hr =>
    rw [Heap.typeName, Value.ref?, Option.bind_some, Heap.string?_eq_some.1 hr]
    rfl
  | array hr =>
    obtain ⟨_, _, -, hys, -⟩ := b.stored.array hr
    rw [Heap.typeName, Value.ref?, Option.bind_some, Heap.array?_eq_some.1 hys]
    rfl
  | closure hr =>
    obtain ⟨_, _, _, _, _, -, hk, -⟩ := b.stored.closure hr
    rw [Heap.typeName, Value.ref?, Option.bind_some, Heap.closure?_eq_some.1 hk]
    rfl
  | native hr =>
    rw [Heap.typeName, Value.ref?, Option.bind_some, Heap.native?_eq_some.1 hr]
    rfl

/-- What stands for the same object is the same. -/
theorem Same.unique (b : Backed H τ s t h) (e : Same τ h v (.object r))
    (e' : Same τ h v' (.object r)) : v = v' := by
  have positions {rs : List Ref} (nodup : rs.Nodup) {i j : Nat} (hi : rs[i]? = some r)
      (hj : rs[j]? = some r) : i = j := by
    obtain ⟨hi', hi⟩ := List.getElem?_eq_some_iff.1 hi
    obtain ⟨hj', hj⟩ := List.getElem?_eq_some_iff.1 hj
    exact (List.Nodup.getElem_inj_iff nodup).1 (hi.trans hj.symm)
  have types : v.typeName = v'.typeName := (e.typeName b).symm.trans (e'.typeName b)
  cases e with
  | string hr =>
    cases e' with
    | string hr' => rw [Option.some.inj (hr.symm.trans hr')]
    | _ => exact absurd types (by simp [Val.typeName])
  | array hr =>
    cases e' with
    | array hr' => rw [positions b.stored.arrayOnce hr hr']
    | _ => exact absurd types (by simp [Val.typeName])
  | closure hr =>
    cases e' with
    | closure hr' => rw [positions b.stored.closureOnce hr hr']
    | _ => exact absurd types (by simp [Val.typeName])
  | native hr =>
    cases e' with
    | native hr' =>
      have same := Option.some.inj (hr.symm.trans hr')
      injection same with _ _ procedure
      injection procedure with same
      rw [same]
    | _ => exact absurd types (by simp [Val.typeName])

/-- A string, an array, a closure or a native is one object. -/
theorem Same.object_unique (b : Backed H τ s t h) {r' : Ref} (e : Same τ h v (.object r))
    (e' : Same τ h v (.object r')) : r = r' := by
  cases e with
  | string hr =>
    cases e' with
    | string hr' => exact b.listed.sound.once hr hr'
  | array hr =>
    cases e' with
    | array hr' => exact Option.some.inj (hr.symm.trans hr')
  | closure hr =>
    cases e' with
    | closure hr' => exact Option.some.inj (hr.symm.trans hr')
  | native hr =>
    cases e' with
    | native hr' => exact b.unshared _ _ _ hr hr'

theorem Same.equals_eq (e : Same τ h v (.object r)) : v.equals v' = decide (v = v') := by
  cases e <;> rfl

theorem Same.equals (b : Backed H τ s t h) (e : Same τ h v w) (e' : Same τ h v' w') :
    (w == w') = v.equals v' := by
  cases w with
  | object r =>
    cases w' with
    | object r' =>
      have handles : (Value.object r == .object r') = decide (r = r') := rfl
      rw [handles, e.equals_eq]
      refine decide_eq_decide.2 ⟨fun same => ?_, fun same => ?_⟩
      · subst same
        exact e.unique b e'
      · subst same
        exact e.object_unique b e'
    | _ => cases e <;> cases e' <;> rfl
  | bool x =>
    cases e
    cases e' with
    | bool y => cases x <;> cases y <;> rfl
    | _ => rfl
  | _ => cases e; cases e' <;> rfl

end Same

section Changes

/-- One more handle at the end of a list. -/
theorem nodup_concat {rs : List Ref} {r : Ref} (nodup : rs.Nodup) (fresh : ∀ r' ∈ rs, r' ≠ r) :
    (rs ++ [r]).Nodup := by
  rw [List.nodup_append]
  refine ⟨nodup, List.nodup_singleton _, fun r' hr' r'' hr'' => ?_⟩
  rw [List.mem_singleton.1 hr'']
  exact fresh r' hr'

/-- A new array. -/
theorem Backed.newArray (b : Backed H τ s t h) {vs : List Val} {ws : Array Value}
    (same : List.Forall₂ (Same τ h) vs ws.toList)
    (fits : (h.allocate (.array ws)).1.size ≤ UInt32.size) :
    let τ' : Ties := { τ with arrays := τ.arrays ++ [(h.allocate (.array ws)).2] }
    Later τ h τ' (h.allocate (.array ws)).1 ∧
      Same τ' (h.allocate (.array ws)).1 (.array s.arrays.size)
        (.object (h.allocate (.array ws)).2) ∧
      Backed H τ' { s with arrays := s.arrays.push vs.toArray } t (h.allocate (.array ws)).1 := by
  intro τ'
  have calm : h.Calm (h.allocate (.array ws)).1 := .allocate h nofun nofun
  have le : τ.Le τ' := ⟨List.prefix_append _ _, List.prefix_refl _, fun _ _ => id⟩
  have l : Later τ h τ' (h.allocate (.array ws)).1 := ⟨le, calm.kept⟩
  have length : s.arrays.size = τ.arrays.length := by
    rw [← Array.length_toList, b.stored.arrays.length_eq]
  have made : (h.allocate (.array ws)).1.array? (h.allocate (.array ws)).2 = some ws :=
    Heap.array?_eq_some.2 ((Heap.Extends.refl _).get?_allocate fits)
  have fresh : ∀ r' ∈ τ.arrays, r' ≠ (h.allocate (.array ws)).2 := by
    rintro r' hr' rfl
    obtain ⟨i, hi⟩ := List.mem_iff_getElem?.1 hr'
    obtain ⟨xs, ys, -, hys, -⟩ := b.stored.array hi
    cases (Heap.get?_fresh fits).symm.trans (Heap.array?_eq_some.1 hys)
  refine ⟨l, .array ?_, ⟨?_, ?_, ?_, ?_⟩, ?_, ?_, ?_⟩
  · rw [length, List.getElem?_concat_length]
  · rw [Array.toList_push]
    refine List.rel_append ?_ (.cons ⟨_, made, same.imp fun _ _ s => s.later l⟩ .nil)
    exact b.stored.arrays.imp fun xs r ⟨ys, hys, each⟩ =>
      ⟨ys, calm.array r ys hys, each.imp fun _ _ s => s.later l⟩
  · exact nodup_concat b.stored.arrayOnce fresh
  · exact b.stored.closures.imp fun f r ⟨k, g, chain, ls, hk, realizes⟩ =>
      ⟨k, g, chain, ls, l.kept.closure? hk, realizes.le le⟩
  · exact b.stored.closureOnce
  · exact b.listed.later l calm.lasts fits
  · exact fun r r' n hr hr' => b.unshared r r' n (calm.native r n hr) (calm.native r' n hr')
  · exact b.kept.trans calm.kept

/-- A new closure. -/
theorem Backed.newClosure (b : Backed H τ s t h) {f : Lambda} {k : Closure} {g : Function}
    {chain : List (Array Capture)} {ls : Levels} (realizes : Realizes H τ f k g chain ls)
    (fits : (h.allocate (.closure k)).1.size ≤ UInt32.size) :
    let τ' : Ties := { τ with closures := τ.closures ++ [(h.allocate (.closure k)).2] }
    Later τ h τ' (h.allocate (.closure k)).1 ∧
      Same τ' (h.allocate (.closure k)).1 (.closure s.closures.size)
        (.object (h.allocate (.closure k)).2) ∧
      Backed H τ' { s with closures := s.closures.push f } t (h.allocate (.closure k)).1 := by
  intro τ'
  have calm : h.Calm (h.allocate (.closure k)).1 := .allocate h nofun nofun
  have le : τ.Le τ' := ⟨List.prefix_refl _, List.prefix_append _ _, fun _ _ => id⟩
  have l : Later τ h τ' (h.allocate (.closure k)).1 := ⟨le, calm.kept⟩
  have length : s.closures.size = τ.closures.length := by
    rw [← Array.length_toList, b.stored.closures.length_eq]
  have made : (h.allocate (.closure k)).1.closure? (h.allocate (.closure k)).2 = some k :=
    Heap.closure?_eq_some.2 ((Heap.Extends.refl _).get?_allocate fits)
  have fresh : ∀ r' ∈ τ.closures, r' ≠ (h.allocate (.closure k)).2 := by
    rintro r' hr' rfl
    obtain ⟨i, hi⟩ := List.mem_iff_getElem?.1 hr'
    obtain ⟨_, _, _, _, _, -, hk, -⟩ := b.stored.closure hi
    cases (Heap.get?_fresh fits).symm.trans (Heap.closure?_eq_some.1 hk)
  refine ⟨l, .closure ?_, ⟨?_, b.stored.arrayOnce, ?_, ?_⟩, ?_, ?_, ?_⟩
  · rw [length, List.getElem?_concat_length]
  · exact b.stored.arrays.imp fun xs r ⟨ys, hys, each⟩ =>
      ⟨ys, calm.array r ys hys, each.imp fun _ _ s => s.later l⟩
  · rw [Array.toList_push]
    refine List.rel_append ?_ (.cons ⟨k, g, chain, ls, made, realizes.le le⟩ .nil)
    exact b.stored.closures.imp fun f r ⟨k, g, chain, ls, hk, realizes⟩ =>
      ⟨k, g, chain, ls, l.kept.closure? hk, realizes.le le⟩
  · exact nodup_concat b.stored.closureOnce fresh
  · exact b.listed.later l calm.lasts fits
  · exact fun r r' n hr hr' => b.unshared r r' n (calm.native r n hr) (calm.native r' n hr')
  · exact b.kept.trans calm.kept

/-- An element of an array is assigned. -/
theorem Backed.setElement (b : Backed H τ s t h) {id i : Nat} {r : Ref} {v : Val} {w : Value}
    (hr : τ.arrays[id]? = some r) (e : Same τ h v w) (fits : h.size ≤ UInt32.size) :
    Later τ h τ (h.setElement r i w) ∧
      Backed H τ { s with arrays := s.arrays.modify id (·.setIfInBounds i v) } t
        (h.setElement r i w) := by
  have l : Later τ h τ (h.setElement r i w) := ⟨.refl τ, h.kept_setElement r i w⟩
  have natives {r' : Ref} {n : Native} :=
    (Heap.Onward.setElement (h := h) r i w .refl).natives (r := r') (n := n)
  refine ⟨l, ⟨?_, b.stored.arrayOnce, ?_, b.stored.closureOnce⟩, ?_, ?_, b.kept.trans l.kept⟩
  · refine forall₂_of_getElem? ?_ fun j xs r' hxs hr' => ?_
    · rw [Array.length_toList, Array.size_modify, ← Array.length_toList, b.stored.arrays.length_eq]
    · rw [Array.getElem?_toList, Array.getElem?_modify] at hxs
      obtain ⟨xs', ys, hxs', hys, each⟩ := b.stored.array hr'
      rw [hxs'] at hxs
      rw [Heap.array?_setElement]
      by_cases e : id = j
      · subst e
        obtain rfl := Option.some.inj (hr.symm.trans hr')
        rw [if_pos rfl, hys]
        rw [if_pos rfl] at hxs
        cases hxs
        refine ⟨_, rfl, ?_⟩
        rw [Array.toList_setIfInBounds, Array.toList_setIfInBounds]
        exact forall₂_set (each.imp fun _ _ s => s.later l) (Same.later ‹_› l) i
      · rw [if_neg e] at hxs
        cases hxs
        have ne : r ≠ r' := by
          rintro rfl
          obtain ⟨hi, hi'⟩ := List.getElem?_eq_some_iff.1 hr
          obtain ⟨hj, hj'⟩ := List.getElem?_eq_some_iff.1 hr'
          exact e ((List.Nodup.getElem_inj_iff b.stored.arrayOnce).1 (hi'.trans hj'.symm))
        rw [if_neg ne]
        exact ⟨ys, hys, each.imp fun _ _ s => s.later l⟩
  · exact b.stored.closures.imp fun f r ⟨k, g, chain, ls, hk, realizes⟩ =>
      ⟨k, g, chain, ls, l.kept.closure? hk, realizes⟩
  · exact b.listed.later l (.setElement h r i w) (by rwa [Heap.size_setElement])
  · exact fun r r' n hr hr' => b.unshared r r' n (natives hr) (natives hr')

section Globals

variable {key : Ref} {name : String} {v : Val} {w : Value}

/-- The value of a global variable. -/
theorem Backed.global (b : Backed H τ s t h) (hk : h.string? key = some name) :
    Option.Rel (Same τ h) (s.globals name) (t.get? key (Text.hash name)) := by
  obtain ⟨d, g, f, each⟩ := b.listed.directory
  rw [f.get?_eq hk]
  exact each name

theorem Backed.global_some (b : Backed H τ s t h) (hk : h.string? key = some name)
    (hg : s.globals name = some v) : ∃ w, t.get? key (Text.hash name) = some w ∧ Same τ h v w := by
  have value := b.global hk
  rw [hg] at value
  generalize t.get? key (Text.hash name) = x at value
  cases value with
  | some same => exact ⟨_, rfl, same⟩

theorem Backed.global_none (b : Backed H τ s t h) (hk : h.string? key = some name)
    (hg : s.globals name = none) : t.get? key (Text.hash name) = none := by
  have value := b.global hk
  rw [hg] at value
  generalize t.get? key (Text.hash name) = x at value
  cases value
  rfl

/-- A global variable gets a value. -/
theorem Backed.define (b : Backed H τ s t h) (hk : h.string? key = some name) (e : Same τ h v w) :
    Backed H τ (s.define name v) (t.insert key (Text.hash name) w).1 h where
  stored := b.stored
  listed := by
    obtain ⟨d, g, f, each⟩ := b.listed.directory
    refine ⟨b.listed.sound, _, _, f.insert b.listed.sound hk w, fun x => ?_⟩
    rw [Store.define]
    dsimp only
    by_cases hx : x = name
    · subst hx
      rw [if_pos rfl, Finmap.lookup_insert]
      exact .some e
    · rw [if_neg hx, Finmap.lookup_insert_of_ne _ hx]
      exact each x
  unshared := b.unshared
  kept := b.kept

/-- Whether a global variable was there before. -/
theorem Backed.isNew (b : Backed H τ s t h) (hk : h.string? key = some name) (w : Value) :
    (t.insert key (Text.hash name) w).2 = (s.globals name).isNone := by
  obtain ⟨d, g, f, each⟩ := b.listed.directory
  rw [f.insert_new hk]
  have present : name ∈ g ↔ (s.globals name).isSome := by
    have each := each name
    rw [Finmap.mem_iff]
    generalize s.globals name = v, g.lookup name = u at each
    cases each <;> simp
  cases hs : s.globals name <;> simp [present, hs]

end Globals

end Changes

end Semantics
end StackScript
