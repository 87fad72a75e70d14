import StackScript.Proofs.Semantics.Relation

/-!
# StackScript.Proofs.Semantics.Celled

What becomes of the places of the stack and of the cells.

* `Celled.push`, `Celled.split`: values are put on the stack and taken from it.
* `Celled.declare`: a value on the stack becomes a variable.
* `Celled.setSlot`, `Celled.setUpvalue`: a variable is assigned.
* `Celled.gather`: variables are captured.
* `Celled.popCell`, `Celled.close`: variables go out of scope.
-/

namespace StackScript

/-- Lists that are related entry by entry, told by positions. -/
theorem forall₂_of_getElem? {α β : Type} {R : α → β → Prop} {as : List α} {bs : List β}
    (length : as.length = bs.length)
    (each : ∀ (i : Nat) (a : α) (b : β), as[i]? = some a → bs[i]? = some b → R a b) : List.Forall₂ R as bs := by
  induction as generalizing bs with
  | nil =>
    cases bs with
    | nil => exact .nil
    | cons b bs => cases length
  | cons a as ih =>
    cases bs with
    | nil => cases length
    | cons b bs =>
      exact .cons (each 0 a b rfl rfl) (ih (Nat.succ.inj length) fun i => each (i + 1))

theorem forall₂_getElem?_both {α β : Type} {R : α → β → Prop} {as : List α} {bs : List β}
    (h : List.Forall₂ R as bs) {i : Nat} {a : α} {b : β} (ha : as[i]? = some a)
    (hb : bs[i]? = some b) : R a b := by
  obtain ⟨b', hb', r⟩ := forall₂_getElem? h ha
  obtain rfl := Option.some.inj (hb.symm.trans hb')
  exact r

namespace Semantics

open Machine (Tracked Allows slotOf slotOf_eq closeFrom closeFrom_spec closeFrom_kept captureSlot)

namespace Celled

variable {τ τ' : Ties} {cells : Array Val} {slots xs : List Slot} {stack : Array Value} {h h' : Heap}
  {c : Nat} {v : Val} {w : Value}

section Positions

theorem getElem?_cell_left {i : Nat} (hi : (slots ++ xs)[i]? = some (.cell c))
    (none : ∀ x ∈ xs, x.cell? = none) : slots[i]? = some (.cell c) := by
  by_cases inside : i < slots.length
  · rwa [List.getElem?_append_left inside] at hi
  · rw [List.getElem?_append_right (Nat.le_of_not_lt inside)] at hi
    cases none _ (List.mem_of_getElem? hi)

theorem getElem?_left {x : Slot} {i : Nat} (hi : slots[i]? = some x) :
    (slots ++ xs)[i]? = some x := by
  rw [List.getElem?_append_left (List.getElem?_eq_some_iff.1 hi).1, hi]

/-- A variable has one place. -/
theorem position_unique (once : (slots.filterMap Slot.cell?).Nodup) :
    ∀ {i j : Nat}, slots[i]? = some (.cell c) → slots[j]? = some (.cell c) → i = j := by
  induction slots with
  | nil => exact fun hi => by cases hi
  | cons x slots ih =>
    have tail : (slots.filterMap Slot.cell?).Nodup := by
      cases hx : x.cell? with
      | none => rwa [List.filterMap_cons_none hx] at once
      | some d =>
        rw [List.filterMap_cons_some hx] at once
        exact (List.nodup_cons.1 once).2
    have head (hx : x = .cell c) {j : Nat} (hj : slots[j]? = some (.cell c)) : False := by
      rw [List.filterMap_cons_some (Slot.cell?_eq_some.2 hx)] at once
      exact (List.nodup_cons.1 once).1
        (List.mem_filterMap.2 ⟨_, List.mem_of_getElem? hj, rfl⟩)
    intro i j hi hj
    cases i with
    | zero =>
      cases j with
      | zero => rfl
      | succ j => exact (head (Option.some.inj hi) hj).elim
    | succ i =>
      cases j with
      | zero => exact (head (Option.some.inj hj) hi).elim
      | succ j => exact congrArg _ (ih tail hi hj)

end Positions

theorem cell_lt (a : Celled τ cells slots stack h) (hc : .cell c ∈ slots) : c < cells.size := by
  obtain ⟨i, hi⟩ := List.mem_iff_getElem?.1 hc
  obtain ⟨w, -, v, hv, -⟩ := forall₂_getElem? a.stack hi
  exact (Array.getElem?_eq_some_iff.1 hv).1

theorem tied_lt (a : Celled τ cells slots stack h) {r : Ref} (hr : τ.cell r = some c) :
    c < cells.size := by
  obtain ⟨v, hv, -⟩ := a.tied r c hr
  exact (Array.getElem?_eq_some_iff.1 hv).1

theorem later (a : Celled τ cells slots stack h) (l : Later τ h τ' h') (same : τ'.cell = τ.cell)
    (up : ∀ r, h'.upvalue? r = h.upvalue? r) : Celled τ' cells slots stack h' where
  stack := a.stack.imp fun _ _ s => s.later l
  once := a.once
  tied r c hc := by
    obtain ⟨v, hv, place | ⟨away, w, hw, s⟩⟩ := a.tied r c (same ▸ hc)
    · exact ⟨v, hv, .inl ((up r).symm ▸ place)⟩
    · exact ⟨v, hv, .inr ⟨away, w, (up r).trans hw, s.later l⟩⟩
  opened r i hr := by
    rw [up] at hr
    rw [same]
    exact a.opened r i hr
  injective := same ▸ a.injective

theorem push {x : Slot} (a : Celled τ cells slots stack h) (hx : x.cell? = none)
    (s : x.Holds τ h cells w) : Celled τ cells (slots ++ [x]) (stack.push w) h where
  stack := by
    rw [Array.toList_push]
    exact List.rel_append a.stack (.cons s .nil)
  once := by
    rw [List.filterMap_append, List.filterMap_cons_none hx, List.filterMap_nil, List.append_nil]
    exact a.once
  tied r c hc := by
    obtain ⟨v, hv, ⟨i, hi, hr⟩ | ⟨away, closed⟩⟩ := a.tied r c hc
    · exact ⟨v, hv, .inl ⟨i, getElem?_left hi, hr⟩⟩
    · refine ⟨v, hv, .inr ⟨fun hc => ?_, closed⟩⟩
      obtain hc | hc := List.mem_append.1 hc
      · exact away hc
      · rw [← List.mem_singleton.1 hc] at hx
        cases hx
  opened r i hr := by
    obtain ⟨c, hi, hc⟩ := a.opened r i hr
    exact ⟨c, getElem?_left hi, hc⟩
  injective := a.injective

/-- Values are taken from the stack. -/
theorem split (a : Celled τ cells (slots ++ xs) stack h) (none : ∀ x ∈ xs, x.cell? = none) :
    ∃ st ws, stack = st ++ List.toArray ws ∧ List.Forall₂ (Slot.Holds τ h cells) xs ws ∧
      st.size = slots.length ∧ Celled τ cells slots st h := by
  obtain ⟨st, ws, e, hst, hws⟩ := forall₂_append_left a.stack
  refine ⟨st.toArray, ws, ?_, hws, ?_, hst, ?_, fun r c hc => ?_, fun r i hr => ?_, a.injective⟩
  · have same : stack.toList.toArray = stack := Array.toArray_toList
    rw [← same, e, List.append_toArray]
  · rw [List.size_toArray, hst.length_eq]
  · have once := a.once
    rw [List.filterMap_append, List.nodup_append] at once
    exact once.1
  · obtain ⟨v, hv, ⟨i, hi, hr⟩ | ⟨away, closed⟩⟩ := a.tied r c hc
    · exact ⟨v, hv, .inl ⟨i, getElem?_cell_left hi none, hr⟩⟩
    · exact ⟨v, hv, .inr ⟨fun hc => away (List.mem_append_left _ hc), closed⟩⟩
  · obtain ⟨c, hi, hc⟩ := a.opened r i hr
    exact ⟨c, getElem?_cell_left hi none, hc⟩

/-- A place of the stack is put to another use. -/
theorem turn {x y : Slot} (a : Celled τ cells (slots ++ x :: xs) stack h) (hx : x.cell? = none)
    (hy : ∀ w, x.Holds τ h cells w → y.Holds τ h cells w)
    (fresh : ∀ c, y = .cell c → .cell c ∉ slots ++ xs ∧ ∀ r, τ.cell r ≠ some c) :
    Celled τ cells (slots ++ y :: xs) stack h where
  stack := by
    obtain ⟨st, ws, e, hst, hws⟩ := forall₂_append_left a.stack
    obtain ⟨w, ws, s, rest, rfl⟩ := List.forall₂_cons_left_iff.1 hws
    rw [e]
    exact List.rel_append hst (.cons (hy w s) rest)
  once := by
    have once := a.once
    rw [List.filterMap_append, List.filterMap_cons_none hx, ← List.filterMap_append] at once
    rw [List.filterMap_append, List.filterMap_cons]
    cases e : y.cell? with
    | none => rwa [List.filterMap_append] at once
    | some c =>
      refine List.nodup_middle.2 (List.nodup_cons.2 ⟨fun hc => ?_, List.filterMap_append ▸ once⟩)
      rw [← List.filterMap_append] at hc
      obtain ⟨z, hz, e'⟩ := List.mem_filterMap.1 hc
      rw [Slot.cell?_eq_some.1 e'] at hz
      exact (fresh c (Slot.cell?_eq_some.1 e)).1 hz
  tied r c hc := by
    obtain ⟨v, hv, ⟨i, hi, hr⟩ | ⟨away, closed⟩⟩ := a.tied r c hc
    · refine ⟨v, hv, .inl ⟨i, ?_, hr⟩⟩
      rw [List.getElem?_append] at hi ⊢
      split at hi
      next inside => rwa [if_pos inside]
      next inside =>
        rw [if_neg inside]
        cases e : i - slots.length with
        | zero =>
          rw [e] at hi
          cases Option.some.inj hi
          cases hx
        | succ j => rwa [e] at hi
    · refine ⟨v, hv, .inr ⟨fun hm => ?_, closed⟩⟩
      obtain hm | hm := List.mem_append.1 hm
      · exact away (List.mem_append_left _ hm)
      · obtain e | hm := List.mem_cons.1 hm
        · exact (fresh c e.symm).2 r hc
        · exact away (List.mem_append_right _ (List.mem_cons_of_mem _ hm))
  opened r i hr := by
    obtain ⟨c, hi, hc⟩ := a.opened r i hr
    refine ⟨c, ?_, hc⟩
    rw [List.getElem?_append] at hi ⊢
    split at hi
    next inside => rwa [if_pos inside]
    next inside =>
      rw [if_neg inside]
      cases e : i - slots.length with
      | zero =>
        rw [e] at hi
        cases Option.some.inj hi
        cases hx
      | succ j => rwa [e] at hi
  injective := a.injective

/-- One more variable that nothing refers to yet. -/
theorem newCell (a : Celled τ cells slots stack h) (v : Val) :
    Celled τ (cells.push v) slots stack h := by
  have old {c : Nat} {u : Val} (hc : cells[c]? = some u) : (cells.push v)[c]? = some u :=
    Within.push _ _ hc
  refine ⟨a.stack.imp fun x w s => ?_, a.once, fun r c hc => ?_, a.opened, a.injective⟩
  · cases x with
    | callee => trivial
    | value => exact s
    | cell c =>
      obtain ⟨u, hu, s⟩ := s
      exact ⟨u, old hu, s⟩
  · obtain ⟨u, hu, place⟩ := a.tied r c hc
    exact ⟨u, old hu, place⟩

/-- A value on the stack becomes a variable. -/
theorem declare (a : Celled τ cells (slots ++ .value v :: xs) stack h) :
    Celled τ (cells.push v) (slots ++ .cell cells.size :: xs) stack h := by
  refine (a.newCell v).turn rfl (fun w s => ⟨v, Array.getElem?_push_size, s⟩) fun c e => ?_
  cases e
  refine ⟨fun hm => Nat.lt_irrefl _ (a.cell_lt ?_), fun r hr => Nat.lt_irrefl _ (a.tied_lt hr)⟩
  obtain hm | hm := List.mem_append.1 hm
  · exact List.mem_append_left _ hm
  · exact List.mem_append_right _ (List.mem_cons_of_mem _ hm)

section Assign

theorem getElem?_setCell {c d : Nat} {u : Val} (hd : cells[d]? = some u) (ne : d ≠ c) (v : Val) :
    (cells.setIfInBounds c v)[d]? = some u := by
  rw [Array.getElem?_setIfInBounds, if_neg (Ne.symm ne), hd]

theorem getElem?_setCell_self (hc : c < cells.size) (v : Val) :
    (cells.setIfInBounds c v)[c]? = some v := by
  rw [Array.getElem?_setIfInBounds, if_pos rfl, if_pos hc]

/-- A variable on the stack is assigned. -/
theorem setSlot (a : Celled τ cells slots stack h) {i : Nat} (hi : slots[i]? = some (.cell c))
    (s : Same τ h v w) :
    Celled τ (cells.setIfInBounds c v) slots (stack.setIfInBounds i w) h where
  stack := by
    have size := a.stack.length_eq
    have inside := (List.getElem?_eq_some_iff.1 hi).1
    refine forall₂_of_getElem? (by simpa using size) fun j x u hj hu => ?_
    rw [Array.toList_setIfInBounds, List.getElem?_set] at hu
    split at hu
    next e =>
      subst e
      rw [if_pos (by omega)] at hu
      cases Option.some.inj (hi.symm.trans hj)
      cases hu
      exact ⟨v, getElem?_setCell_self (a.cell_lt (List.mem_of_getElem? hi)) v, s⟩
    next ne =>
      have before := forall₂_getElem?_both a.stack hj hu
      cases x with
      | callee => trivial
      | value => exact before
      | cell d =>
        obtain ⟨u', hu', s'⟩ := before
        refine ⟨u', getElem?_setCell hu' (fun e => ne ?_) v, s'⟩
        subst e
        exact position_unique a.once hi hj
  once := a.once
  tied r d hd := by
    obtain ⟨u, hu, place⟩ := a.tied r d hd
    by_cases e : d = c
    · subst e
      refine ⟨v, getElem?_setCell_self (a.tied_lt hd) v, ?_⟩
      obtain place | ⟨away, -⟩ := place
      · exact .inl place
      · exact (away (List.mem_of_getElem? hi)).elim
    · exact ⟨u, getElem?_setCell hu e v, place⟩
  opened := a.opened
  injective := a.injective

/-- A variable behind its upvalue is assigned. -/
theorem setUpvalue (a : Celled τ cells slots stack h) {r : Ref} {u : Value}
    (hr : τ.cell r = some c) (closed : h.upvalue? r = some (.closed u)) (s : Same τ h v w) :
    Celled τ (cells.setIfInBounds c v) slots stack (h.set r (.upvalue (.closed w))) := by
  have l : Later τ h τ (h.set r (.upvalue (.closed w))) := ⟨.refl τ, Heap.kept_set closed⟩
  have away : .cell c ∉ slots := by
    obtain ⟨-, -, ⟨i, -, e⟩ | ⟨away, -⟩⟩ := a.tied r c hr
    · rw [closed] at e
      cases e
    · exact away
  refine ⟨?_, a.once, fun r' d hd => ?_, fun r' i hr' => ?_, a.injective⟩
  · refine forall₂_of_getElem? a.stack.length_eq fun j x u hj hu => ?_
    have before := forall₂_getElem?_both a.stack hj hu
    cases x with
    | callee => trivial
    | value => exact Same.later before l
    | cell d =>
      obtain ⟨u', hu', s'⟩ := before
      refine ⟨u', getElem?_setCell hu' (fun e => away ?_) v, s'.later l⟩
      exact e ▸ List.mem_of_getElem? hj
  · obtain ⟨u', hu', place⟩ := a.tied r' d hd
    by_cases e : d = c
    · subst e
      obtain rfl := a.injective _ _ _ hr hd
      refine ⟨v, getElem?_setCell_self (a.tied_lt hd) v, .inr ⟨away, w, ?_, s.later l⟩⟩
      rw [Heap.upvalue?_set closed, if_pos rfl]
    · have ne : r ≠ r' := fun e' => e (Option.some.inj ((e' ▸ hd).symm.trans hr))
      have up : (h.set r (.upvalue (.closed w))).upvalue? r' = h.upvalue? r' := by
        rw [Heap.upvalue?_set closed, if_neg ne]
      refine ⟨u', getElem?_setCell hu' e v, ?_⟩
      rw [up]
      obtain place | ⟨away', w', hw', s'⟩ := place
      · exact .inl place
      · exact .inr ⟨away', w', hw', s'.later l⟩
  · rw [Heap.upvalue?_set closed] at hr'
    split at hr'
    · cases hr'
    · exact a.opened r' i hr'

end Assign

section Capture

/-- Which slots can be captured. -/
def shape (slots : List Slot) : Bytecode.Shape := (slots.map fun x => x.cell?.isSome).reverse

theorem allows_shape {i : Nat} : Allows (shape slots) i ↔ ∃ c, slots[i]? = some (.cell c) := by
  rw [Allows, shape, List.reverse_reverse, List.getElem?_map]
  constructor
  · intro h
    obtain ⟨x, hx, e⟩ := Option.map_eq_some_iff.1 h
    obtain ⟨c, hc⟩ := Option.isSome_iff_exists.1 e
    exact ⟨c, hx.trans (congrArg some (Slot.cell?_eq_some.1 hc))⟩
  · rintro ⟨c, hc⟩
    rw [hc]
    rfl

/-- The upvalues that are open are on variables. -/
theorem tracked (a : Celled τ cells slots stack h) {opens : List Ref}
    (t : ∃ σ, Tracked h opens σ) : Tracked h opens (shape slots) := by
  obtain ⟨σ, t⟩ := t
  refine ⟨t.opened, t.sorted, fun r i hr => allows_shape.2 ?_⟩
  obtain ⟨c, hi, -⟩ := a.opened r i hr
  exact ⟨c, hi⟩

/-- New upvalues stand for the variables that they are open on. -/
theorem gather (a : Celled τ cells slots stack h) (e : h.Extends h') {opens : List Ref}
    (t : Tracked h' opens (shape slots)) :
    ∃ τ', τ.Le τ' ∧ τ'.arrays = τ.arrays ∧ τ'.closures = τ.closures ∧
      Celled τ' cells slots stack h' ∧
      ∀ r i c, h'.upvalue? r = some (.opened i) → slots[i]? = some (.cell c) →
        τ'.cell r = some c := by
  classical
  let cell (r : Ref) : Option Nat :=
    if ∃ i, h'.upvalue? r = some (.opened i) then slots[slotOf h' r]?.bind Slot.cell?
    else τ.cell r
  let τ' : Ties := { τ with cell }
  have isOpen {r : Ref} {i d : Nat} (hr : h'.upvalue? r = some (.opened i))
      (hi : slots[i]? = some (.cell d)) : τ'.cell r = some d := by
    show (if _ then _ else _) = _
    rw [if_pos ⟨i, hr⟩, slotOf_eq hr, hi]
    rfl
  have isClosed {r : Ref} (hr : ∀ i, h'.upvalue? r ≠ some (.opened i)) : τ'.cell r = τ.cell r :=
    if_neg fun ⟨i, h⟩ => hr i h
  have old {r : Ref} {u : Upvalue} (hr : h.upvalue? r = some u) : h'.upvalue? r = some u :=
    Heap.upvalue?_eq_some.2 (e.get? (Heap.upvalue?_eq_some.1 hr))
  -- what a variable has that is told to be behind an upvalue
  have cases_ {r : Ref} {d : Nat} (hd : τ'.cell r = some d) :
      (∃ i, h'.upvalue? r = some (.opened i) ∧ slots[i]? = some (.cell d)) ∨
        (∀ i, h'.upvalue? r ≠ some (.opened i)) ∧ τ.cell r = some d := by
    by_cases hr : ∃ i, h'.upvalue? r = some (.opened i)
    · obtain ⟨i, hr⟩ := hr
      obtain ⟨d', hi⟩ := allows_shape.1 (t.allowed r i hr)
      obtain rfl := Option.some.inj ((isOpen hr hi).symm.trans hd)
      exact .inl ⟨i, hr, hi⟩
    · have hr : ∀ i, h'.upvalue? r ≠ some (.opened i) := fun i h => hr ⟨i, h⟩
      exact .inr ⟨hr, (isClosed hr).symm.trans hd⟩
  have le : τ.Le τ' := ⟨List.prefix_refl _, List.prefix_refl _, fun r d hd => by
    obtain ⟨v, -, ⟨i, hi, hr⟩ | ⟨-, w, hr, -⟩⟩ := a.tied r d hd
    · exact isOpen (old hr) hi
    · exact (isClosed fun i h => nomatch (old hr).symm.trans h).trans hd⟩
  have l : Later τ h τ' h' := ⟨le, e.kept⟩
  have closed {r : Ref} {d : Nat} (hr : ∀ i, h'.upvalue? r ≠ some (.opened i))
      (hd : τ.cell r = some d) : ∃ v, cells[d]? = some v ∧ .cell d ∉ slots ∧
        ∃ w, h'.upvalue? r = some (.closed w) ∧ Same τ' h' v w := by
    obtain ⟨v, hv, ⟨i, -, hr'⟩ | ⟨away, w, hw, s⟩⟩ := a.tied r d hd
    · exact (hr i (old hr')).elim
    · exact ⟨v, hv, away, w, old hw, s.later l⟩
  refine ⟨τ', le, rfl, rfl, ⟨a.stack.imp fun _ _ s => s.later l, a.once, fun r d hd => ?_,
    fun r i hr => ?_, fun r r' d hd hd' => ?_⟩, fun r i d => isOpen⟩
  · obtain ⟨i, hr, hi⟩ | ⟨hr, hd⟩ := cases_ hd
    · obtain ⟨w, -, v, hv, -⟩ := forall₂_getElem? a.stack hi
      exact ⟨v, hv, .inl ⟨i, hi, hr⟩⟩
    · obtain ⟨v, hv, place⟩ := closed hr hd
      exact ⟨v, hv, .inr place⟩
  · obtain ⟨d, hi⟩ := allows_shape.1 (t.allowed r i hr)
    exact ⟨d, hi, isOpen hr hi⟩
  · obtain ⟨i, hr, hi⟩ | ⟨hr, hd⟩ := cases_ hd
    · obtain ⟨j, hr', hj⟩ | ⟨hr', hd'⟩ := cases_ hd'
      · obtain rfl := position_unique a.once hi hj
        exact t.unique hr hr'
      · obtain ⟨-, -, away, -⟩ := closed hr' hd'
        exact (away (List.mem_of_getElem? hi)).elim
    · obtain ⟨j, hr', hj⟩ | ⟨hr', hd'⟩ := cases_ hd'
      · obtain ⟨-, -, away, -⟩ := closed hr hd
        exact (away (List.mem_of_getElem? hj)).elim
      · exact a.injective r r' d hd hd'

end Capture

section Scope

/-- A variable that is not captured goes out of scope. -/
theorem popCell (a : Celled τ cells (slots ++ [.cell c]) stack h)
    (none : ∀ r, h.upvalue? r ≠ some (.opened slots.length)) :
    Celled τ cells slots stack.pop h := by
  have inner {i d : Nat} (hi : (slots ++ [.cell c])[i]? = some (.cell d)) {r : Ref}
      (hr : h.upvalue? r = some (.opened i)) : slots[i]? = some (.cell d) := by
    rw [List.getElem?_append] at hi
    split at hi
    next => exact hi
    next outside =>
      have inside := (List.getElem?_eq_some_iff.1 hi).1
      rw [List.length_singleton] at inside
      have : i = slots.length := by omega
      subst this
      exact (none r hr).elim
  refine ⟨?_, ?_, fun r d hd => ?_, fun r i hr => ?_, a.injective⟩
  · obtain ⟨st, ws, e, hst, hws⟩ := forall₂_append_left a.stack
    obtain ⟨w, ws, -, rest, rfl⟩ := List.forall₂_cons_left_iff.1 hws
    cases rest
    rw [Array.toList_pop, e, List.dropLast_concat]
    exact hst
  · have once := a.once
    rw [List.filterMap_append, List.nodup_append] at once
    exact once.1
  · obtain ⟨v, hv, ⟨i, hi, hr⟩ | ⟨away, closed⟩⟩ := a.tied r d hd
    · exact ⟨v, hv, .inl ⟨i, inner hi hr, hr⟩⟩
    · exact ⟨v, hv, .inr ⟨fun hm => away (List.mem_append_left _ hm), closed⟩⟩
  · obtain ⟨d, hi, hd⟩ := a.opened r i hr
    exact ⟨d, inner hi hr, hd⟩

/-- Places are taken from the stack once their upvalues are closed. -/
theorem close (a : Celled τ cells (slots ++ xs) stack h) {opens : List Ref}
    (all : ∀ r, r ∈ opens ↔ ∃ i, h.upvalue? r = some (.opened i))
    (sorted : opens.Pairwise fun a b => slotOf h b < slotOf h a) :
    Celled τ cells slots (stack.shrink slots.length)
      (closeFrom slots.length stack h opens).1 := by
  obtain ⟨-, -, upvalues⟩ :=
    closeFrom_spec slots.length stack (fun r hr => (all r).1 hr) sorted
  have l : Later τ h τ (closeFrom slots.length stack h opens).1 :=
    ⟨.refl τ, (closeFrom_kept slots.length stack opens h).1⟩
  have stays {r : Ref} {i : Nat} (hr : h.upvalue? r = some (.opened i)) (hi : i < slots.length) :
      (closeFrom slots.length stack h opens).1.upvalue? r = some (.opened i) := by
    rw [upvalues, if_neg fun hc => Nat.not_le_of_lt hi (slotOf_eq hr ▸ hc.2), hr]
  have goes {r : Ref} {i : Nat} (hr : h.upvalue? r = some (.opened i)) (hi : slots.length ≤ i) :
      (closeFrom slots.length stack h opens).1.upvalue? r = some (.closed (stack[i]?.getD .nil)) := by
    rw [upvalues, slotOf_eq hr, if_pos ⟨(all r).2 ⟨i, hr⟩, hi⟩]
  refine ⟨?_, ?_, fun r d hd => ?_, fun r i hr => ?_, a.injective⟩
  · obtain ⟨st, ws, e, hst, -⟩ := forall₂_append_left a.stack
    have taken : (st ++ ws).take slots.length = st := List.take_left' hst.length_eq.symm
    rw [Array.toList_shrink, e, taken]
    exact hst.imp fun _ _ s => s.later l
  · have once := a.once
    rw [List.filterMap_append, List.nodup_append] at once
    exact once.1
  · obtain ⟨v, hv, ⟨i, hi, hr⟩ | ⟨away, w, hw, s⟩⟩ := a.tied r d hd
    · refine ⟨v, hv, ?_⟩
      by_cases inside : i < slots.length
      · rw [List.getElem?_append_left inside] at hi
        exact .inl ⟨i, hi, stays hr inside⟩
      · obtain ⟨w, hw, v', hv', s⟩ := forall₂_getElem? a.stack hi
        obtain rfl := Option.some.inj (hv.symm.trans hv')
        refine .inr ⟨fun hm => ?_, w, ?_, s.later l⟩
        · obtain ⟨j, hj⟩ := List.mem_iff_getElem?.1 hm
          have := position_unique a.once hi (getElem?_left hj)
          have := (List.getElem?_eq_some_iff.1 hj).1
          omega
        · rw [goes hr (Nat.le_of_not_lt inside), ← Array.getElem?_toList, hw]
          rfl
    · refine ⟨v, hv, .inr ⟨fun hm => away (List.mem_append_left _ hm), w, ?_, s.later l⟩⟩
      rw [upvalues, if_neg, hw]
      rintro ⟨hm, -⟩
      obtain ⟨i, hi⟩ := (all r).1 hm
      rw [hw] at hi
      cases hi
  · rw [upvalues] at hr
    split at hr
    next => cases hr
    next hc =>
      obtain ⟨d, hi, hd⟩ := a.opened r i hr
      have inside : i < slots.length := by
        by_contra outside
        exact hc ⟨(all r).2 ⟨i, hr⟩, slotOf_eq hr ▸ Nat.le_of_not_lt outside⟩
      rw [List.getElem?_append_left inside] at hi
      exact ⟨d, hi, hd⟩

end Scope

end Celled
end Semantics
end StackScript
