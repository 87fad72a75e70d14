import Mathlib.Data.List.Count
import StackScript.Store.Table

/-!
# StackScript.Proofs.Store.Table

What a probe finds, and what stays true of a table in which each key comes with one hash.

* `Reach`: a slot that a probe gets to, because no slot before it is empty.
* `Ordered`: every entry is reached from where its hash sends a probe, and no key is there twice.
* `Sound`: an ordered table with room for a probe to end.
* `mem_candidates`, `mem_insert`: looking up and inserting, told by the entries.
-/

namespace StackScript

/-- Whether a probe goes on behind a slot. -/
def Slot.used {α : Type} : Slot α → Bool
  | .empty => false
  | _ => true

namespace Table

variable {α : Type}

/-- No slot among the first `d` from slot `i` on is empty. -/
def Reach (slots : Array (Slot α)) (i d : Nat) : Prop :=
  ∀ k < d, slots[(i + k) % slots.size]? ≠ some .empty

theorem Reach.tail {slots : Array (Slot α)} {i d : Nat} (h : Reach slots i (d + 1)) :
    Reach slots (after slots i) d := by
  intro k hk
  have := h (k + 1) (by omega)
  rwa [after, Nat.mod_add_mod, Nat.add_assoc, Nat.add_comm 1]

theorem Reach.cons {slots : Array (Slot α)} {i d : Nat} (hi : i < slots.size)
    (hs : slots[i]? ≠ some .empty) (h : Reach slots (after slots i) d) :
    Reach slots i (d + 1) := by
  intro k hk
  cases k with
  | zero => rwa [Nat.add_zero, Nat.mod_eq_of_lt hi]
  | succ k =>
    have := h k (by omega)
    rwa [after, Nat.mod_add_mod, Nat.add_assoc, Nat.add_comm 1] at this

theorem after_add (slots : Array (Slot α)) (i k : Nat) :
    (after slots i + k) % slots.size = (i + (k + 1)) % slots.size := by
  rw [after, Nat.mod_add_mod, Nat.add_assoc, Nat.add_comm 1]

section Probe

variable {slots : Array (Slot α)} {key : Ref} {steps i j : Nat} {spare : Option Nat}

/-- The slot of a key is on the way that a probe takes. -/
def Meets (slots : Array (Slot α)) (key : Ref) (i steps j : Nat) : Prop :=
  ∃ d < steps, (i + d) % slots.size = j ∧ Reach slots i d ∧
    ∃ e, slots[j]? = some (.full e) ∧ e.key = key

/-- A slot on the way that a probe takes is free. -/
def Frees (slots : Array (Slot α)) (i steps j : Nat) : Prop :=
  ∃ d < steps, (i + d) % slots.size = j ∧ Reach slots i d ∧
    (slots[j]? = some .empty ∨ slots[j]? = some .tombstone)

theorem Meets.cons (hi : i < slots.size) (hs : slots[i]? ≠ some .empty)
    (h : Meets slots key (after slots i) steps j) : Meets slots key i (steps + 1) j := by
  obtain ⟨d, hd, at_j, reach, found⟩ := h
  exact ⟨d + 1, by omega, by rw [← after_add, at_j], reach.cons hi hs, found⟩

theorem Frees.cons (hi : i < slots.size) (hs : slots[i]? ≠ some .empty)
    (h : Frees slots (after slots i) steps j) : Frees slots i (steps + 1) j := by
  obtain ⟨d, hd, at_j, reach, free⟩ := h
  exact ⟨d + 1, by omega, by rw [← after_add, at_j], reach.cons hi hs, free⟩

/-- A key that is met is at the slot in front of the probe or behind it. -/
theorem Meets.tail (hi : i < slots.size) (h : Meets slots key i (steps + 1) j) :
    (j = i ∧ ∃ e, slots[i]? = some (.full e) ∧ e.key = key) ∨
      (slots[i]? ≠ some .empty ∧ Meets slots key (after slots i) steps j) := by
  obtain ⟨d, hd, at_j, reach, found⟩ := h
  cases d with
  | zero =>
    rw [Nat.add_zero, Nat.mod_eq_of_lt hi] at at_j
    subst at_j
    exact .inl ⟨rfl, found⟩
  | succ d =>
    refine .inr ⟨?_, d, by omega, by rw [after_add, at_j], reach.tail, found⟩
    have := reach 0 (by omega)
    rwa [Nat.add_zero, Nat.mod_eq_of_lt hi] at this

/-- A probe finds the key, or else a free slot where it belongs. -/
theorem probe_eq_some : ∀ {steps i : Nat} {spare : Option Nat}, i < slots.size →
    probe slots key steps i spare = some j →
    Meets slots key i steps j ∨
      ((∀ j', ¬Meets slots key i steps j') ∧
        (spare = some j ∨ (spare = none ∧ Frees slots i steps j))) := by
  intro steps
  induction steps with
  | zero =>
    intro i spare _ h
    refine .inr ⟨?_, .inl h⟩
    rintro j' ⟨d, hd, -⟩
    cases hd
  | succ steps ih =>
    intro i spare hi h
    have next : after slots i < slots.size := Nat.mod_lt _ (by omega)
    unfold probe at h
    split at h
    next hs =>
      rw [Array.getElem?_eq_getElem hi] at hs
      cases hs
    next hs =>
      refine .inr ⟨?_, ?_⟩
      · intro j' m
        obtain ⟨-, e, he, -⟩ | ⟨ne, -⟩ := m.tail hi
        · rw [hs] at he
          cases he
        · exact ne hs
      · cases spare with
        | none =>
          obtain rfl : i = j := Option.some.inj h
          refine .inr ⟨rfl, 0, by omega, ?_, ?_, .inl hs⟩
          · rw [Nat.add_zero, Nat.mod_eq_of_lt hi]
          · intro k hk
            cases hk
        | some m => exact .inl h
    next hs =>
      have ne : slots[i]? ≠ some .empty := by simp [hs]
      obtain m | ⟨none, hj⟩ := ih next h
      · exact .inl (m.cons hi ne)
      · refine .inr ⟨?_, ?_⟩
        · intro j' m
          obtain ⟨-, e, he, -⟩ | ⟨-, m⟩ := m.tail hi
          · rw [hs] at he
            cases he
          · exact none j' m
        · obtain hj | ⟨hj, -⟩ := hj
          · cases spare with
            | none =>
              obtain rfl : i = j := Option.some.inj hj
              refine .inr ⟨rfl, 0, by omega, ?_, ?_, .inr hs⟩
              · rw [Nat.add_zero, Nat.mod_eq_of_lt hi]
              · intro k hk
                cases hk
            | some m => exact .inl hj
          · cases hj
    next e hs =>
      have ne : slots[i]? ≠ some .empty := by simp [hs]
      split at h
      next hk =>
        obtain rfl : i = j := Option.some.inj h
        refine .inl ⟨0, by omega, ?_, ?_, e, hs, hk⟩
        · rw [Nat.add_zero, Nat.mod_eq_of_lt hi]
        · intro k hk
          cases hk
      next hk =>
        obtain m | ⟨none, hj⟩ := ih next h
        · exact .inl (m.cons hi ne)
        · refine .inr ⟨?_, ?_⟩
          · intro j' m
            obtain ⟨-, e', he, hk'⟩ | ⟨-, m⟩ := m.tail hi
            · rw [hs] at he
              cases he
              exact hk hk'
            · exact none j' m
          · exact hj.imp id fun ⟨hs, f⟩ => ⟨hs, f.cons hi ne⟩

/-- A probe that meets an empty slot comes to an end there. -/
theorem probe_ne_none : ∀ {steps i : Nat} {spare : Option Nat}, i < slots.size →
    (∃ d < steps, slots[(i + d) % slots.size]? = some .empty) →
    probe slots key steps i spare ≠ none := by
  intro steps
  induction steps with
  | zero =>
    rintro i spare - ⟨d, hd, -⟩
    cases hd
  | succ steps ih =>
    rintro i spare hi ⟨d, hd, he⟩
    have next : after slots i < slots.size := Nat.mod_lt _ (by omega)
    have rest (hs : slots[i]? ≠ some .empty) :
        ∃ d < steps, slots[(after slots i + d) % slots.size]? = some .empty := by
      cases d with
      | zero =>
        rw [Nat.add_zero, Nat.mod_eq_of_lt hi] at he
        exact absurd he hs
      | succ d => exact ⟨d, by omega, by rw [after_add]; exact he⟩
    unfold probe
    split
    next hs =>
      rw [Array.getElem?_eq_getElem hi] at hs
      cases hs
    next => simp
    next hs => exact ih next (rest (by simp [hs]))
    next e hs =>
      split
      next => simp
      next => exact ih next (rest (by simp [hs]))

end Probe

/-- The entries of some slots. -/
def Holds (slots : Array (Slot α)) (e : Entry α) : Prop :=
  ∃ i : Nat, slots[i]? = some (.full e)

structure Ordered (slots : Array (Slot α)) : Prop where
  reach : ∀ {i : Nat} {e : Entry α}, slots[i]? = some (.full e) →
    ∃ d < slots.size, (home slots e.hash + d) % slots.size = i ∧ Reach slots (home slots e.hash) d
  keys : ∀ {i j : Nat} {e e' : Entry α}, slots[i]? = some (.full e) →
    slots[j]? = some (.full e') → e.key = e'.key → i = j

theorem home_lt {slots : Array (Slot α)} {hash : UInt32} (h : 0 < slots.size) :
    home slots hash < slots.size :=
  Nat.mod_lt _ h

section Put

variable {slots : Array (Slot α)} {key : Ref} {hash : UInt32} {j : Nat}

/-- Every slot is on the way of every probe. -/
theorem exists_offset {i : Nat} (hi : i < slots.size) (hj : j < slots.size) :
    ∃ d < slots.size, (i + d) % slots.size = j := by
  by_cases h : i ≤ j
  · exact ⟨j - i, by omega, by rw [show i + (j - i) = j by omega, Nat.mod_eq_of_lt hj]⟩
  · refine ⟨j + slots.size - i, by omega, ?_⟩
    rw [show i + (j + slots.size - i) = j + slots.size by omega, Nat.add_mod_right,
      Nat.mod_eq_of_lt hj]

/-- Where a key belongs: the slot that has it, or a free one if no slot has it. -/
structure Belongs (slots : Array (Slot α)) (key : Ref) (hash : UInt32) (j : Nat) : Prop where
  lt : j < slots.size
  reach : ∃ d < slots.size, (home slots hash + d) % slots.size = j ∧ Reach slots (home slots hash) d
  slot : (∃ e, slots[j]? = some (.full e) ∧ e.key = key) ∨
    ((slots[j]? = some .empty ∨ slots[j]? = some .tombstone) ∧ ∀ e, Holds slots e → e.key ≠ key)

theorem find_belongs (ho : Ordered slots)
    (hk : ∀ e, Holds slots e → e.key = key → e.hash = hash)
    (he : ∃ m : Nat, slots[m]? = some .empty) :
    ∃ j, find slots key hash = some j ∧ Belongs slots key hash j := by
  obtain ⟨m, hm⟩ := he
  have hm' : m < slots.size := (Array.getElem?_eq_some_iff.1 hm).1
  have start : home slots hash < slots.size := home_lt (by omega)
  obtain ⟨d, hd, at_m⟩ := exists_offset start hm'
  have free : find slots key hash ≠ none := probe_ne_none start ⟨d, hd, by rw [at_m]; exact hm⟩
  obtain ⟨j, hj⟩ := Option.ne_none_iff_exists'.1 free
  refine ⟨j, hj, ?_⟩
  obtain ⟨d, hd, at_j, reach, found⟩ | ⟨absent, spare | ⟨-, d, hd, at_j, reach, free⟩⟩ :=
    probe_eq_some start hj
  · exact ⟨at_j ▸ Nat.mod_lt _ (by omega), ⟨d, hd, at_j, reach⟩, .inl found⟩
  · cases spare
  · refine ⟨at_j ▸ Nat.mod_lt _ (by omega), ⟨d, hd, at_j, reach⟩, .inr ⟨free, ?_⟩⟩
    rintro e ⟨i, hi⟩ rfl
    obtain ⟨d, hd, at_i, reach⟩ := ho.reach hi
    rw [hk e ⟨i, hi⟩ rfl] at at_i reach
    exact absent i ⟨d, hd, at_i, reach, e, hi, rfl⟩

variable {v : α}

/-- Putting an entry where it belongs. -/
theorem Ordered.put (ho : Ordered slots) (hb : Belongs slots key hash j) :
    Ordered (slots.setIfInBounds j (.full ⟨key, hash, v⟩)) ∧
      ∀ e, Holds (slots.setIfInBounds j (.full ⟨key, hash, v⟩)) e ↔
        e = ⟨key, hash, v⟩ ∨ (Holds slots e ∧ e.key ≠ key) := by
  have size : (slots.setIfInBounds j (.full ⟨key, hash, v⟩)).size = slots.size :=
    Array.size_setIfInBounds
  have slot (i : Nat) : (slots.setIfInBounds j (.full ⟨key, hash, v⟩))[i]? =
      if j = i then some (.full ⟨key, hash, v⟩) else slots[i]? := by
    rw [Array.getElem?_setIfInBounds]
    split
    next => rw [if_pos hb.lt]
    next => rfl
  have reach {i d : Nat} (h : Reach slots i d) :
      Reach (slots.setIfInBounds j (.full ⟨key, hash, v⟩)) i d := by
    intro k hk
    rw [size, slot]
    split
    next => simp
    next => exact h k hk
  -- an entry elsewhere has another key
  have other {i : Nat} {e : Entry α} (hi : slots[i]? = some (.full e)) (ne : j ≠ i) :
      e.key ≠ key := by
    rintro rfl
    obtain ⟨e', hj, same⟩ | ⟨-, absent⟩ := hb.slot
    · exact ne (ho.keys hj hi same)
    · exact absent e ⟨i, hi⟩ rfl
  refine ⟨⟨?_, ?_⟩, ?_⟩
  · intro i e hi
    rw [slot] at hi
    simp only [home, size]
    split at hi
    next e' =>
      cases hi
      obtain ⟨d, hd, at_j, way⟩ := hb.reach
      exact ⟨d, hd, by rw [← e']; exact at_j, reach way⟩
    next =>
      obtain ⟨d, hd, at_i, way⟩ := ho.reach hi
      exact ⟨d, hd, at_i, reach way⟩
  · intro i i' e e' hi hi' same
    rw [slot] at hi hi'
    split at hi <;> split at hi'
    next h h' => exact h.symm.trans h'
    next h h' =>
      cases hi
      exact absurd same.symm (other hi' h')
    next h h' =>
      cases hi'
      exact absurd same (other hi h)
    next => exact ho.keys hi hi' same
  · intro e
    constructor
    · rintro ⟨i, hi⟩
      rw [slot] at hi
      split at hi
      next =>
        cases hi
        exact .inl rfl
      next h => exact .inr ⟨⟨i, hi⟩, other hi h⟩
    · rintro (rfl | ⟨⟨i, hi⟩, ne⟩)
      · exact ⟨j, by rw [slot, if_pos rfl]⟩
      · refine ⟨i, ?_⟩
        rw [slot, if_neg ?_]
        · exact hi
        · rintro rfl
          obtain ⟨e', hj, same⟩ | ⟨free | free, -⟩ := hb.slot
          · rw [hi] at hj
            cases hj
            exact ne same
          · rw [hi] at free
            cases free
          · rw [hi] at free
            cases free

end Put

section Room

/-- The number of slots that are not empty. -/
def used (slots : Array (Slot α)) : Nat := slots.countP Slot.used

variable {slots : Array (Slot α)} {j : Nat}

theorem exists_empty (h : used slots < slots.size) : ∃ m : Nat, slots[m]? = some .empty := by
  by_contra no
  refine Nat.lt_irrefl _ (Nat.lt_of_lt_of_eq h (Eq.symm ?_))
  refine Array.countP_eq_size.2 fun s hs => ?_
  obtain ⟨m, hm⟩ := Array.mem_iff_getElem?.1 hs
  cases s with
  | empty => exact absurd ⟨m, hm⟩ no
  | tombstone => rfl
  | full => rfl

theorem used_set (hj : j < slots.size) (e : Entry α) :
    used (slots.setIfInBounds j (.full e)) = used slots + if slots[j].used then 0 else 1 := by
  have le : slots[j].used = true → 1 ≤ slots.countP Slot.used := fun h =>
    Array.one_le_countP_iff.2 ⟨slots[j], Array.getElem_mem hj, h⟩
  have full : (Slot.full e).used = true := rfl
  rw [used, Array.setIfInBounds, dif_pos hj, Array.countP_set, used, if_pos full]
  split
  next h =>
    have := le h
    omega
  next => rw [Nat.sub_zero]

end Room

theorem mem_entries {t : Table α} {e : Entry α} : e ∈ t.entries ↔ Holds t.slots e := by
  simp only [entries, List.mem_filterMap, Array.mem_toList_iff, Holds, ← Array.mem_iff_getElem?]
  constructor
  · rintro ⟨s, hs, he⟩
    cases s with
    | full e' =>
      cases he
      exact hs
    | _ => cases he
  · exact fun h => ⟨.full e, h, rfl⟩

/-- An ordered table, less than full. -/
structure Sound (t : Table α) : Prop where
  ordered : Ordered t.slots
  taken : used t.slots ≤ t.taken
  room : 4 * t.taken ≤ 3 * t.capacity

theorem sound_empty : Sound (empty : Table α) where
  ordered := ⟨fun h => by simp [empty] at h, fun h => by simp [empty] at h⟩
  taken := Nat.le_refl 0
  room := Nat.le_refl 0

section Resize

theorem replicate_empty {n i : Nat} {s : Slot α} (h : (Array.replicate n .empty)[i]? = some s) :
    s = .empty := by
  rw [Array.getElem?_replicate] at h
  split at h
  next => exact (Option.some.inj h).symm
  next => cases h

/-- Placing entries with distinct keys into slots that have room for all of them. -/
theorem foldl_place {es : List (Entry α)} : ∀ {slots : Array (Slot α)}, Ordered slots →
    (es.map Entry.key).Nodup → (∀ e ∈ es, ∀ e', Holds slots e' → e'.key ≠ e.key) →
    used slots + es.length < slots.size →
    Ordered (es.foldl place slots) ∧ (∀ e, Holds (es.foldl place slots) e ↔ e ∈ es ∨ Holds slots e) ∧
      used (es.foldl place slots) ≤ used slots + es.length ∧
      (es.foldl place slots).size = slots.size := by
  induction es with
  | nil => exact fun ho _ _ _ => ⟨ho, by simp, Nat.le_refl _, rfl⟩
  | cons e es ih =>
    intro slots ho distinct apart room
    obtain ⟨fresh, distinct⟩ := List.nodup_cons.1 (List.map_cons ▸ distinct)
    rw [List.length_cons] at room
    have absent : ∀ e', Holds slots e' → e'.key ≠ e.key := apart e List.mem_cons_self
    obtain ⟨j, hj, belongs⟩ := find_belongs ho (fun e' h same => absurd same (absent e' h))
      (exists_empty (by omega))
    have placed : place slots e = slots.setIfInBounds j (.full e) := by
      rw [place, hj]
    obtain ⟨ho', holds⟩ : Ordered (slots.setIfInBounds j (.full e)) ∧
        ∀ e', Holds (slots.setIfInBounds j (.full e)) e' ↔
          e' = e ∨ (Holds slots e' ∧ e'.key ≠ e.key) := ho.put (v := e.value) belongs
    have more := used_set belongs.lt e
    have size : (slots.setIfInBounds j (.full e)).size = slots.size := Array.size_setIfInBounds
    have le : used (slots.setIfInBounds j (.full e)) ≤ used slots + 1 := by
      rw [more]
      split <;> omega
    have apart' : ∀ e₁ ∈ es, ∀ e', Holds (slots.setIfInBounds j (.full e)) e' → e'.key ≠ e₁.key := by
      intro e₁ he₁ e' he'
      obtain rfl | ⟨he', -⟩ := (holds e').1 he'
      · exact fun same => fresh (List.mem_map.2 ⟨e₁, he₁, same.symm⟩)
      · exact apart e₁ (List.mem_cons_of_mem _ he₁) e' he'
    obtain ⟨ordered, all, count, same⟩ := ih ho' distinct apart' (by
      rw [size]
      omega)
    rw [List.foldl_cons, placed]
    refine ⟨ordered, fun e' => ?_, ?_, same.trans size⟩
    · rw [all, holds, List.mem_cons]
      constructor
      · rintro (h | rfl | ⟨h, -⟩)
        · exact .inl (.inr h)
        · exact .inl (.inl rfl)
        · exact .inr h
      · rintro ((rfl | h) | h)
        · exact .inr (.inl rfl)
        · exact .inl h
        · exact .inr (.inr ⟨h, absent e' h⟩)
    · refine Nat.le_trans count ?_
      rw [List.length_cons]
      omega

theorem nodup_filterMap_entry {slots : List (Slot α)}
    (hk : slots.Pairwise fun s s' => ∀ e e', s = .full e → s' = .full e' → e.key ≠ e'.key) :
    ((slots.filterMap Slot.entry?).map Entry.key).Nodup := by
  refine List.Pairwise.map _ (fun _ _ h => h) (List.Pairwise.filterMap _ ?_ hk)
  intro s s' h e he e' he'
  cases s with
  | full e₁ =>
    cases s' with
    | full e₁' =>
      cases he
      cases he'
      exact h _ _ rfl rfl
    | _ => cases he'
  | _ => cases he

theorem Ordered.nodup_keys {t : Table α} (ho : Ordered t.slots) :
    (t.entries.map Entry.key).Nodup := by
  refine nodup_filterMap_entry (List.pairwise_iff_getElem.2 fun i j hi hj lt e e' he he' same => ?_)
  have at_i : t.slots[i]? = some (.full e) := by
    rw [← he, Array.getElem?_eq_getElem (by simpa using hi), Array.getElem_toList]
  have at_j : t.slots[j]? = some (.full e') := by
    rw [← he', Array.getElem?_eq_getElem (by simpa using hj), Array.getElem_toList]
  exact absurd (ho.keys at_i at_j same) (by omega)

theorem length_entries_le (t : Table α) : t.entries.length ≤ used t.slots := by
  rw [entries, used, ← Array.countP_toList]
  induction t.slots.toList with
  | nil => exact Nat.le_refl _
  | cons s ss ih =>
    have used (s : Slot α) : s.used = match s with | .empty => false | _ => true := by
      cases s <;> rfl
    cases s <;> simp only [List.filterMap_cons, Slot.entry?, List.countP_cons, used, if_true,
      Bool.false_eq_true, if_false, List.length_cons] <;> omega

/-- What making room leaves alone. -/
theorem Sound.reserve {t : Table α} (h : t.Sound) :
    Ordered t.reserve.slots ∧ (∀ e, Holds t.reserve.slots e ↔ Holds t.slots e) ∧
      used t.reserve.slots ≤ t.reserve.taken ∧
      4 * (t.reserve.taken + 1) ≤ 3 * t.reserve.capacity := by
  unfold Table.reserve
  split
  next =>
    have length := length_entries_le t
    have taken := h.taken
    have room := h.room
    obtain ⟨hg, hg8⟩ : t.capacity ≤ grow t.capacity ∧ 8 ≤ grow t.capacity := by
      unfold grow
      split <;> omega
    have lt : 4 * (t.entries.length + 1) ≤ 3 * grow t.capacity := by
      unfold grow
      split <;> omega
    have nothing : used (Array.replicate (grow t.capacity) (.empty : Slot α)) = 0 :=
      Array.countP_eq_zero.2 fun s hs => by
        rw [Array.eq_of_mem_replicate hs]
        simp [Slot.used]
    have bare (e : Entry α) : ¬Holds (Array.replicate (grow t.capacity) .empty) e := by
      rintro ⟨i, hi⟩
      cases replicate_empty hi
    have fresh : Ordered (Array.replicate (grow t.capacity) (.empty : Slot α)) :=
      ⟨fun h => absurd ⟨_, h⟩ (bare _), fun h => absurd ⟨_, h⟩ (bare _)⟩
    obtain ⟨ordered, holds, count, size⟩ := foldl_place fresh
      h.ordered.nodup_keys (fun e _ e' h' => absurd h' (bare e')) (by
        rw [nothing, Array.size_replicate]
        omega)
    refine ⟨ordered, fun e => ?_, ?_, ?_⟩
    · rw [resize, holds, mem_entries]
      exact or_iff_left (bare e)
    · rw [nothing, Nat.zero_add] at count
      exact count
    · rw [Array.size_replicate] at size
      exact Nat.le_trans lt (Nat.le_of_eq (congrArg (3 * ·) size.symm))
  next h' => exact ⟨h.ordered, fun _ => .rfl, h.taken, by omega⟩

end Resize

/-- Inserting replaces the entry of a key, or adds one. -/
theorem Sound.insert {t : Table α} (h : t.Sound) (key : Ref) (hash : UInt32) (v : α)
    (hk : ∀ e ∈ t.entries, e.key = key → e.hash = hash) :
    (t.insert key hash v).1.Sound ∧ ∀ e, e ∈ (t.insert key hash v).1.entries ↔
      e = ⟨key, hash, v⟩ ∨ (e ∈ t.entries ∧ e.key ≠ key) := by
  obtain ⟨ordered, holds, taken, room⟩ := h.reserve
  have hk' : ∀ e, Holds t.reserve.slots e → e.key = key → e.hash = hash :=
    fun e he => hk e (mem_entries.2 ((holds e).1 he))
  obtain ⟨j, hj, belongs⟩ := find_belongs ordered hk' (exists_empty (by
    simp only [capacity] at room
    omega))
  obtain ⟨ordered', holds'⟩ := ordered.put (v := v) belongs
  have more := used_set belongs.lt ⟨key, hash, v⟩
  have lt := belongs.lt
  have size : (t.reserve.slots.setIfInBounds j (.full ⟨key, hash, v⟩)).size =
      t.reserve.slots.size := Array.size_setIfInBounds
  have slot : t.reserve.slots[j]? = some t.reserve.slots[j] := Array.getElem?_eq_getElem belongs.lt
  have result : (t.insert key hash v).1 =
      ⟨t.reserve.slots.setIfInBounds j (.full ⟨key, hash, v⟩),
        t.reserve.taken + if t.reserve.slots[j].used then 0 else 1⟩ := by
    unfold Table.insert
    simp only [hj, slot]
    cases t.reserve.slots[j] <;> rfl
  rw [result]
  refine ⟨⟨ordered', ?_, ?_⟩, fun e => ?_⟩
  · rw [more]
    exact Nat.add_le_add_right taken _
  · simp only [capacity, size] at room ⊢
    split <;> omega
  · rw [mem_entries, holds', holds, mem_entries]

/-- The candidates for a hash are the keys that came with it. -/
theorem Sound.mem_candidates {t : Table α} (h : t.Sound) {hash : UInt32} {key : Ref} :
    key ∈ t.candidates hash ↔ ∃ e ∈ t.entries, e.key = key ∧ e.hash = hash := by
  have collected : ∀ {steps i : Nat}, i < t.slots.size →
      (key ∈ collect t.slots hash steps i ↔ ∃ d < steps, Reach t.slots i d ∧
        ∃ e, t.slots[(i + d) % t.slots.size]? = some (.full e) ∧ e.key = key ∧ e.hash = hash) := by
    intro steps
    induction steps with
    | zero => simp [collect]
    | succ steps ih =>
      intro i hi
      have next : after t.slots i < t.slots.size := Nat.mod_lt _ (by omega)
      have first : (i + 0) % t.slots.size = i := Nat.mod_eq_of_lt hi
      have later (hs : t.slots[i]? ≠ some .empty) :
          key ∈ collect t.slots hash steps (after t.slots i) ↔
            ∃ d < steps, Reach t.slots i (d + 1) ∧ ∃ e,
              t.slots[(i + (d + 1)) % t.slots.size]? = some (.full e) ∧ e.key = key ∧
              e.hash = hash := by
        rw [ih next]
        simp only [after_add]
        exact exists_congr fun d => and_congr_right fun _ => and_congr_left fun _ =>
          ⟨Reach.cons hi hs, Reach.tail⟩
      have split_first (P : Nat → Prop) :
          (∃ d < steps + 1, P d) ↔ P 0 ∨ ∃ d < steps, P (d + 1) := by
        constructor
        · rintro ⟨d, hd, hp⟩
          cases d with
          | zero => exact .inl hp
          | succ d => exact .inr ⟨d, by omega, hp⟩
        · rintro (hp | ⟨d, hd, hp⟩)
          · exact ⟨0, by omega, hp⟩
          · exact ⟨d + 1, by omega, hp⟩
      have reach_zero : Reach t.slots i 0 := fun k hk => by cases hk
      have stuck (hs : t.slots[i]? = some .empty) (d : Nat) : ¬Reach t.slots i (d + 1) := by
        intro r
        have := r 0 (by omega)
        rw [first] at this
        exact this hs
      rw [split_first, first, collect]
      cases hs : t.slots[i]? with
      | none =>
        rw [Array.getElem?_eq_getElem hi] at hs
        cases hs
      | some s =>
        cases s with
        | empty => simp [stuck hs]
        | tombstone => simpa using later (by simp [hs])
        | full e =>
          have later := later (by simp [hs])
          by_cases he : e.hash = hash
          · simp [he, later, reach_zero, eq_comm]
          · simp [he, later]
  by_cases hn : 0 < t.slots.size
  · rw [candidates, collected (home_lt hn)]
    constructor
    · rintro ⟨d, -, -, e, he, found⟩
      exact ⟨e, mem_entries.2 ⟨_, he⟩, found⟩
    · rintro ⟨e, he, rfl, rfl⟩
      obtain ⟨i, hi⟩ := mem_entries.1 he
      obtain ⟨d, hd, at_i, reach⟩ := h.ordered.reach hi
      exact ⟨d, hd, reach, e, by rw [at_i]; exact hi, rfl, rfl⟩
  · have none : t.slots = #[] := Array.eq_empty_of_size_eq_zero (by omega)
    simp [candidates, collect, none, entries]

end Table
end StackScript
