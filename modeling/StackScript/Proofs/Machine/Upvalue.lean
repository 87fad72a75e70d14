import Mathlib.Data.List.Pairwise
import Mathlib.Data.List.TakeWhile
import StackScript.Machine.State
import StackScript.Proofs.Bytecode.Shape
import StackScript.Proofs.Store.Kept

/-!
# StackScript.Proofs.Machine.Upvalue

Captured variables.

* `content`: the value of a captured variable, in its slot or on the heap.
* `Tracked`: the open upvalues are known, one for each slot, and only where the shape of the stack
  allows it.
* `captureSlot_spec`, `closeFrom_spec`: opening and closing upvalues.
-/

namespace StackScript
namespace Machine

open Bytecode
open Bytecode.Shape (temporaries Below)

/-- The value of a captured variable. -/
def content (stack : Array Value) (h : Heap) (r : Ref) : Option Value :=
  match h.upvalue? r with
  | some (.opened slot) => stack[slot]?
  | some (.closed v) => some v
  | none => none

/-- A slot may be captured. -/
def Allows (σ : Shape) (slot : Nat) : Prop := σ.reverse[slot]? = some true

namespace Allows

variable {σ τ top : Shape} {slot : Nat}

theorem lt (h : Allows σ slot) : slot < σ.length := by
  obtain ⟨inside, -⟩ := List.getElem?_eq_some_iff.1 h
  simpa using inside

theorem append (h : Allows σ slot) (top : Shape) : Allows (top ++ σ) slot := by
  have := h.lt
  unfold Allows at h ⊢
  rw [List.reverse_append, List.getElem?_append_left (by simpa using this), h]

theorem ofAppend (h : Allows (top ++ σ) slot) (hs : slot < σ.length) : Allows σ slot := by
  unfold Allows at h ⊢
  rwa [List.reverse_append, List.getElem?_append_left (by simpa using hs)] at h

/-- Slots that are not captured can be taken. -/
theorem ofTemporaries {n : Nat} (h : Allows (temporaries n ++ σ) slot) : Allows σ slot := by
  by_cases hs : slot < σ.length
  · exact h.ofAppend hs
  · unfold Allows at h
    rw [List.reverse_append, List.getElem?_append_right (by simpa using hs), temporaries,
      List.reverse_replicate, List.getElem?_replicate] at h
    split at h <;> cases h

theorem below (h : Allows σ slot) (hb : σ.Below τ) : Allows τ slot := by
  obtain ⟨b, hb, raised⟩ := forall₂_getElem? (List.forall₂_reverse_iff.2 hb) h
  rw [Allows, hb, raised rfl]

end Allows

/-- What is known about the open upvalues. -/
structure Tracked (h : Heap) (opens : List Ref) (σ : Shape) : Prop where
  opened : ∀ r, r ∈ opens ↔ ∃ slot, h.upvalue? r = some (.opened slot)
  sorted : opens.Pairwise fun a b => slotOf h b < slotOf h a
  allowed : ∀ r slot, h.upvalue? r = some (.opened slot) → Allows σ slot

theorem slotOf_eq {h : Heap} {r : Ref} {slot : Nat} (hr : h.upvalue? r = some (.opened slot)) :
    slotOf h r = slot := by
  simp [slotOf, hr, Upvalue.slot?]

namespace Tracked

variable {h h' : Heap} {opens : List Ref} {σ τ : Shape}

/-- A slot has one upvalue at most. -/
theorem unique (t : Tracked h opens σ) {r r' : Ref} {slot : Nat}
    (hr : h.upvalue? r = some (.opened slot)) (hr' : h.upvalue? r' = some (.opened slot)) :
    r = r' := by
  by_contra hne
  have : Std.Symm fun a b => slotOf h a ≠ slotOf h b := ⟨fun _ _ => Ne.symm⟩
  have distinct : opens.Pairwise fun a b => slotOf h a ≠ slotOf h b :=
    t.sorted.imp fun lt => Nat.ne_of_gt lt
  refine distinct.forall ((t.opened r).2 ⟨slot, hr⟩) ((t.opened r').2 ⟨slot, hr'⟩) hne ?_
  rw [slotOf_eq hr, slotOf_eq hr']

theorem reshape (t : Tracked h opens σ) (hσ : ∀ slot, Allows σ slot → Allows τ slot) :
    Tracked h opens τ :=
  ⟨t.opened, t.sorted, fun r slot hr => hσ slot (t.allowed r slot hr)⟩

/-- The upvalues of another heap have the same slots. -/
theorem congr (t : Tracked h opens σ)
    (he : ∀ r slot, h'.upvalue? r = some (.opened slot) ↔ h.upvalue? r = some (.opened slot)) :
    Tracked h' opens σ := by
  refine ⟨fun r => (t.opened r).trans (exists_congr fun slot => (he r slot).symm), ?_,
    fun r slot hr => t.allowed r slot ((he r slot).1 hr)⟩
  refine List.Pairwise.imp_of_mem (fun {a b} ha hb lt => ?_) t.sorted
  obtain ⟨s, hs⟩ := (t.opened a).1 ha
  obtain ⟨s', hs'⟩ := (t.opened b).1 hb
  rw [slotOf_eq hs, slotOf_eq hs'] at lt
  rwa [slotOf_eq ((he a s).2 hs), slotOf_eq ((he b s').2 hs')]

end Tracked

section Same

variable {h : Heap} {r : Ref}

theorem upvalue?_allocate {o : Object} (ho : ∀ u, o ≠ .upvalue u) :
    (h.allocate o).1.upvalue? r = h.upvalue? r := by
  cases hu : h.upvalue? r with
  | some u =>
    exact Heap.upvalue?_eq_some.2
      ((h.extends_allocate o).get? (Heap.upvalue?_eq_some.1 hu))
  | none =>
    by_contra hne
    obtain ⟨u, hu'⟩ := Option.ne_none_iff_exists'.1 hne
    obtain old | ⟨e, -⟩ := Heap.get?_allocate_cases (Heap.upvalue?_eq_some.1 hu')
    · rw [Heap.upvalue?_eq_some.2 old] at hu
      cases hu
    · exact ho u e.symm

theorem upvalue?_intern {text : String} : (h.intern text).1.upvalue? r = h.upvalue? r := by
  unfold Heap.intern
  split
  · rfl
  · exact upvalue?_allocate (o := .string text) (by simp)

theorem upvalue?_setElement {i : Nat} {r' : Ref} {v : Value} :
    (h.setElement r' i v).upvalue? r = h.upvalue? r := by
  cases hu : h.upvalue? r with
  | some u =>
    obtain ⟨o, ho, b⟩ := h.kept_setElement r' i v (Heap.upvalue?_eq_some.1 hu)
    obtain old | ⟨xs, ys, -, e⟩ := Heap.get?_setElement ho
    · rw [Heap.upvalue?_eq_some.1 hu] at old
      cases old
      exact Heap.upvalue?_eq_some.2 ho
    · rw [Heap.upvalue?_eq_some.1 hu] at e
      cases e
  | none =>
    by_contra hne
    obtain ⟨u, hu'⟩ := Option.ne_none_iff_exists'.1 hne
    obtain old | ⟨xs, ys, e, -⟩ := Heap.get?_setElement (Heap.upvalue?_eq_some.1 hu')
    · rw [Heap.upvalue?_eq_some.2 old] at hu
      cases hu
    · cases e

end Same

/-- An upvalue takes its place among the open ones. -/
theorem Tracked.insert {h h' : Heap} {opens : List Ref} {σ : Shape} {r : Ref} {slot : Nat}
    (t : Tracked h opens σ) (ha : Allows σ slot) (hn : ∀ r ∈ opens, slotOf h r ≠ slot)
    (hr : h.upvalue? r = none) (hr' : h'.upvalue? r = some (.opened slot))
    (same : ∀ r', r' ≠ r → h'.upvalue? r' = h.upvalue? r') :
    Tracked h' (opens.takeWhile (fun r => decide (slot < slotOf h r)) ++
      r :: opens.dropWhile fun r => decide (slot < slotOf h r)) σ := by
  have fresh : r ∉ opens := fun hm => by
    obtain ⟨s, hs⟩ := (t.opened r).1 hm
    rw [hr] at hs
    cases hs
  have old {a : Ref} (hm : a ∈ opens) : slotOf h' a = slotOf h a := by
    rw [slotOf, slotOf, same a fun e => fresh (e ▸ hm)]
  have split := List.takeWhile_append_dropWhile (p := fun r => decide (slot < slotOf h r)) (l := opens)
  generalize habove : opens.takeWhile (fun r => decide (slot < slotOf h r)) = above at *
  generalize hbelow : opens.dropWhile (fun r => decide (slot < slotOf h r)) = below at *
  have higher : ∀ a ∈ above, slot < slotOf h a := by
    intro a hm
    rw [← habove] at hm
    simpa using List.mem_takeWhile_imp hm
  have sorted := t.sorted
  rw [← split, List.pairwise_append] at sorted
  have lower : ∀ b ∈ below, slotOf h b < slot := by
    intro b hm
    have ne := hn b (split ▸ List.mem_append_right _ hm)
    cases below with
    | nil => cases hm
    | cons c below =>
      have first : ¬slot < slotOf h c := by
        have := List.head?_dropWhile_not (fun r => decide (slot < slotOf h r)) opens
        rw [hbelow] at this
        simpa using this
      obtain rfl | hm' := List.mem_cons.1 hm
      · omega
      · have := List.rel_of_pairwise_cons sorted.2.1 hm'
        omega
  have mine : slotOf h' r = slot := slotOf_eq hr'
  have inAbove {a : Ref} (hm : a ∈ above) : a ∈ opens := split ▸ List.mem_append_left _ hm
  have inBelow {a : Ref} (hm : a ∈ below) : a ∈ opens := split ▸ List.mem_append_right _ hm
  refine ⟨fun a => ?_, ?_, fun a s hs => ?_⟩
  · by_cases e : a = r
    · subst e
      exact ⟨fun _ => ⟨slot, hr'⟩, fun _ => by simp⟩
    · rw [same a e, ← t.opened a, ← split]
      simp [e]
  · refine List.pairwise_append.2 ⟨?_, List.pairwise_cons.2 ⟨?_, ?_⟩, ?_⟩
    · exact sorted.1.imp_of_mem fun ha hb lt => by rwa [old (inAbove ha), old (inAbove hb)]
    · intro b hb
      rw [mine, old (inBelow hb)]
      exact lower b hb
    · exact sorted.2.1.imp_of_mem fun ha hb lt => by rwa [old (inBelow ha), old (inBelow hb)]
    · intro a ha b hb
      obtain rfl | hb := List.mem_cons.1 hb
      · rw [mine, old (inAbove ha)]
        exact higher a ha
      · rw [old (inAbove ha), old (inBelow hb)]
        exact sorted.2.2 a ha b hb
  · by_cases e : a = r
    · subst e
      cases hr'.symm.trans hs
      exact ha
    · rw [same a e] at hs
      exact t.allowed a s hs

/-- Capturing a slot changes neither the calls nor the stack. -/
theorem same_captureSlot (m : Machine) (slot : Nat) :
    (m.captureSlot slot).1.frames = m.frames ∧ (m.captureSlot slot).1.stack = m.stack ∧
      (m.captureSlot slot).1.hosts = m.hosts := by
  unfold captureSlot
  split <;> exact ⟨rfl, rfl, rfl⟩

/-- A slot is captured by the upvalue that it has, or else by a new one. -/
theorem captureSlot_spec (m : Machine) (slot : Nat) :
    m.heap.Extends (m.captureSlot slot).1.heap ∧
    (∀ r o, (m.captureSlot slot).1.heap.get? r = some o →
      m.heap.get? r = some o ∨ ∃ u, o = .upvalue u) ∧
    (∀ {σ : Shape}, Tracked m.heap m.openUpvalues σ → Allows σ slot →
      (m.captureSlot slot).1.heap.size ≤ UInt32.size →
      Tracked (m.captureSlot slot).1.heap (m.captureSlot slot).1.openUpvalues σ ∧
      (m.captureSlot slot).1.heap.upvalue? (m.captureSlot slot).2 = some (.opened slot)) := by
  unfold captureSlot
  split
  next r hr =>
    refine ⟨.refl _, fun r o h => .inl h, fun t ha _ => ⟨t, ?_⟩⟩
    obtain ⟨s, hs⟩ := (t.opened r).1 (List.mem_of_find?_eq_some hr)
    have : slotOf m.heap r = slot := by simpa using List.find?_some hr
    rwa [← this, slotOf_eq hs]
  next hn =>
    refine ⟨m.heap.extends_allocate _, fun r o h => ?_, fun {σ} t ha hs => ?_⟩
    · obtain old | ⟨e, -⟩ := Heap.get?_allocate_cases h
      · exact .inl old
      · exact .inr ⟨_, e⟩
    · have hs : (m.heap.allocate (.upvalue (.opened slot))).1.size ≤ UInt32.size := hs
      have hr' := (Heap.Extends.refl _).get?_allocate (h := m.heap) (o := .upvalue (.opened slot)) hs
      rw [Heap.size_allocate] at hs
      have hr : m.heap.upvalue? (m.heap.allocate (.upvalue (.opened slot))).2 = none := by
        rw [Heap.upvalue?, Heap.get?_allocate_none hs]
      refine ⟨t.insert ha ?_ hr (Heap.upvalue?_eq_some.2 hr') fun r' ne => ?_,
        Heap.upvalue?_eq_some.2 hr'⟩
      · intro r hm e
        have := List.find?_eq_none.1 hn r hm
        simp [e] at this
      · cases hu : m.heap.upvalue? r' with
        | some u =>
          exact Heap.upvalue?_eq_some.2
            ((m.heap.extends_allocate _).get? (Heap.upvalue?_eq_some.1 hu))
        | none =>
          by_contra some
          obtain ⟨u, hu'⟩ := Option.ne_none_iff_exists'.1 some
          obtain old | ⟨-, e⟩ := Heap.get?_allocate_cases (Heap.upvalue?_eq_some.1 hu')
          · rw [Heap.upvalue?_eq_some.2 old] at hu
            cases hu
          · exact ne (Heap.ref_allocate hs e)

/-- Closing upvalues changes nothing but upvalues. -/
theorem closeFrom_kept (least : Nat) (stack : Array Value) (opens : List Ref) : ∀ h : Heap,
    h.Kept (closeFrom least stack h opens).1 ∧
    (closeFrom least stack h opens).1.size = h.size ∧
    ∀ r, (closeFrom least stack h opens).1.closure? r = h.closure? r := by
  induction opens with
  | nil => exact fun h => ⟨.refl h, rfl, fun _ => rfl⟩
  | cons a opens ih =>
    intro h
    rw [closeFrom]
    split
    next slot ha =>
      split
      · exact ⟨.refl h, rfl, fun _ => rfl⟩
      · obtain ⟨kept, size, closures⟩ :=
          ih (h.set a (.upvalue (.closed (stack[slot]?.getD .nil))))
        exact ⟨(Heap.kept_set ha).trans kept, size.trans (Heap.size_set ..),
          fun r => (closures r).trans (Heap.closure?_set ha)⟩
    next => exact ih h

/-- Upvalues of the slots from `least` on are closed with the values of their slots. The others
stay open. -/
theorem closeFrom_spec (least : Nat) (stack : Array Value) {opens : List Ref} :
    ∀ {h : Heap}, (∀ r ∈ opens, ∃ slot, h.upvalue? r = some (.opened slot)) →
      (opens.Pairwise fun a b => slotOf h b < slotOf h a) →
      (closeFrom least stack h opens).2 <:+ opens ∧
      (∀ r, r ∈ (closeFrom least stack h opens).2 ↔ r ∈ opens ∧ slotOf h r < least) ∧
      ∀ r, (closeFrom least stack h opens).1.upvalue? r =
        if r ∈ opens ∧ least ≤ slotOf h r then
          some (.closed (stack[slotOf h r]?.getD .nil))
        else h.upvalue? r := by
  induction opens with
  | nil =>
    intro h _ _
    exact ⟨List.suffix_refl _, fun r => by simp [closeFrom], fun r => by simp [closeFrom]⟩
  | cons a opens ih =>
    intro h opened sorted
    obtain ⟨slot, ha⟩ := opened a List.mem_cons_self
    have slots := slotOf_eq ha
    rw [closeFrom, ha]
    dsimp only
    split
    next low =>
      have all {r : Ref} (hm : r ∈ a :: opens) : slotOf h r < least := by
        obtain rfl | hm := List.mem_cons.1 hm
        · omega
        · have := List.rel_of_pairwise_cons sorted hm
          omega
      refine ⟨List.suffix_refl _, fun r => ⟨fun hm => ⟨hm, all hm⟩, And.left⟩,
        fun r => (if_neg ?_).symm⟩
      rintro ⟨hm, high⟩
      have := all hm
      omega
    next high =>
      have fresh : a ∉ opens := fun hm => by
        have := List.rel_of_pairwise_cons sorted hm
        omega
      have step (r : Ref) (u : Upvalue) : (h.set a (.upvalue u)).upvalue? r =
          if a = r then some u else h.upvalue? r :=
        Heap.upvalue?_set ha
      have same {r : Ref} (u : Upvalue) (hm : r ∈ opens) :
          (h.set a (.upvalue u)).upvalue? r = h.upvalue? r := by
        have ne : a ≠ r := fun e => fresh (e ▸ hm)
        rw [step, if_neg ne]
      obtain ⟨v, hv⟩ : ∃ v, v = stack[slot]?.getD .nil := ⟨_, rfl⟩
      rw [← hv]
      have opened' : ∀ r ∈ opens, ∃ slot,
          (h.set a (.upvalue (.closed v))).upvalue? r = some (.opened slot) := fun r hm => by
        rw [same _ hm]
        exact opened r (List.mem_cons_of_mem _ hm)
      have slotOf' {r : Ref} (hm : r ∈ opens) :
          slotOf (h.set a (.upvalue (.closed v))) r = slotOf h r := by
        rw [slotOf, slotOf, same _ hm]
      have sorted' := (List.pairwise_cons.1 sorted).2.imp_of_mem
        (S := fun a' b => slotOf (h.set a (.upvalue (.closed v))) b <
          slotOf (h.set a (.upvalue (.closed v))) a')
        fun hx hy lt => by rwa [slotOf' hx, slotOf' hy]
      obtain ⟨suffix, members, upvalues⟩ := ih opened' sorted'
      refine ⟨suffix.trans (List.suffix_cons ..), fun r => ?_, fun r => ?_⟩
      · rw [members, List.mem_cons]
        refine ⟨fun ⟨hm, lt⟩ => ⟨.inr hm, slotOf' hm ▸ lt⟩, fun ⟨hm, lt⟩ => ?_⟩
        obtain rfl | hm := hm
        · omega
        · exact ⟨hm, (slotOf' hm).symm ▸ lt⟩
      rw [upvalues, step]
      by_cases e : a = r
      · subst e
        rw [if_neg fun h => fresh h.1, if_pos rfl, slots,
          if_pos ⟨List.mem_cons_self, Nat.le_of_not_lt high⟩, hv]
      · rw [if_neg e]
        by_cases hm : r ∈ opens
        · rw [slotOf' hm]
          simp [hm]
        · rw [if_neg fun h => hm h.1, if_neg fun h => (List.mem_cons.1 h.1).elim (e ∘ Eq.symm) hm]

/-- The variables in the slots from `least` on can be taken from the stack once their upvalues are
closed. No captured variable loses its value. -/
theorem Tracked.close {h : Heap} {opens : List Ref} {τ σ : Shape} (stack : Array Value)
    (t : Tracked h opens (τ ++ σ)) :
    Tracked (closeFrom σ.length stack h opens).1 (closeFrom σ.length stack h opens).2 σ ∧
    ∀ {stack' : Array Value}, (∀ i < σ.length, stack'[i]? = stack[i]?) →
      ∀ {r v}, content stack h r = some v →
        content stack' (closeFrom σ.length stack h opens).1 r = some v := by
  obtain ⟨suffix, members, upvalues⟩ :=
    closeFrom_spec σ.length stack (fun r hm => (t.opened r).1 hm) t.sorted
  have opened (r : Ref) (slot : Nat) :
      (closeFrom σ.length stack h opens).1.upvalue? r = some (.opened slot) ↔
        h.upvalue? r = some (.opened slot) ∧ slot < σ.length := by
    rw [upvalues]
    split
    next hc =>
      refine ⟨fun e => by simp at e, fun ⟨e, lt⟩ => ?_⟩
      rw [slotOf_eq e] at hc
      omega
    next hc =>
      refine ⟨fun e => ⟨e, ?_⟩, And.left⟩
      by_contra high
      exact hc ⟨(t.opened r).2 ⟨slot, e⟩, by rw [slotOf_eq e]; omega⟩
  refine ⟨⟨fun r => ?_, ?_, fun r slot e => ?_⟩, fun {stack'} agree r v hv => ?_⟩
  · rw [members, t.opened]
    constructor
    · rintro ⟨⟨slot, e⟩, lt⟩
      exact ⟨slot, (opened r slot).2 ⟨e, slotOf_eq e ▸ lt⟩⟩
    · rintro ⟨slot, e⟩
      obtain ⟨e, lt⟩ := (opened r slot).1 e
      exact ⟨⟨slot, e⟩, slotOf_eq e ▸ lt⟩
  · refine (t.sorted.sublist suffix.sublist).imp_of_mem fun {a b} ha hb lt => ?_
    obtain ⟨ha, la⟩ := (members a).1 ha
    obtain ⟨hb, lb⟩ := (members b).1 hb
    obtain ⟨sa, ea⟩ := (t.opened a).1 ha
    obtain ⟨sb, eb⟩ := (t.opened b).1 hb
    rw [slotOf_eq ea] at lt la
    rw [slotOf_eq eb] at lt lb
    rwa [slotOf_eq ((opened a sa).2 ⟨ea, la⟩), slotOf_eq ((opened b sb).2 ⟨eb, lb⟩)]
  · obtain ⟨e, lt⟩ := (opened r slot).1 e
    exact (t.allowed r slot e).ofAppend lt
  · rw [content] at hv ⊢
    rw [upvalues]
    by_cases hc : r ∈ opens ∧ σ.length ≤ slotOf h r
    · obtain ⟨slot, e⟩ := (t.opened r).1 hc.1
      rw [if_pos hc, slotOf_eq e]
      rw [e] at hv
      simp only at hv ⊢
      rw [hv]
      rfl
    · rw [if_neg hc]
      cases e : h.upvalue? r with
      | none => simp [e] at hv
      | some u =>
        rw [e] at hv
        cases u with
        | closed w => exact hv
        | opened slot =>
          refine (agree slot ?_).trans hv
          by_contra high
          exact hc ⟨(t.opened r).2 ⟨slot, e⟩, by rw [slotOf_eq e]; omega⟩

end Machine
end StackScript
