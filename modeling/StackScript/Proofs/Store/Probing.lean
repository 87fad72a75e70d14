import StackScript.Proofs.Store.Dictionary

/-!
# StackScript.Proofs.Store.Probing

Every probe of a table comes to an end, whatever hashes the keys come with.

* `Probes`, `Searches`: the two searches as loops without a bound, with the number of slots that
  they look at.
* `Ends`: both searches of some slots end within as many steps as there are slots.
* `Roomy`: the count of a table covers its slots that are not empty and leaves a quarter of all
  slots free. `Roomy.apply`: every operation keeps it.
* `Exact`: the count is that of the entries and the tombstones, as long as each key comes with one
  hash.
-/

namespace StackScript
namespace Table

variable {α : Type}

/-- The search for the slot of a key, from slot `i` on, looks at `n` slots and ends with slot `j`.
`spare` is the first tombstone met so far. -/
inductive Probes (slots : Array (Slot α)) (key : Ref) : Nat → Option Nat → Nat → Nat → Prop where
  | empty {i : Nat} {spare : Option Nat} (at_i : slots[i]? = some .empty) :
    Probes slots key i spare 1 (spare.getD i)
  | tombstone {i n j : Nat} {spare : Option Nat} (at_i : slots[i]? = some .tombstone)
      (rest : Probes slots key (after slots i) (some (spare.getD i)) n j) :
    Probes slots key i spare (n + 1) j
  | found {i : Nat} {spare : Option Nat} {e : Entry α} (at_i : slots[i]? = some (.full e))
      (same : e.key = key) : Probes slots key i spare 1 i
  | other {i n j : Nat} {spare : Option Nat} {e : Entry α} (at_i : slots[i]? = some (.full e))
      (differs : e.key ≠ key) (rest : Probes slots key (after slots i) spare n j) :
    Probes slots key i spare (n + 1) j

/-- The search for a key with a given hash that satisfies `p`, from slot `i` on, looks at `n`
slots. -/
inductive Searches (slots : Array (Slot α)) (hash : UInt32) (p : Ref → Bool) :
    Nat → Nat → Option Ref → Prop where
  | empty {i : Nat} (at_i : slots[i]? = some .empty) : Searches slots hash p i 1 none
  | tombstone {i n : Nat} {result : Option Ref} (at_i : slots[i]? = some .tombstone)
      (rest : Searches slots hash p (after slots i) n result) :
    Searches slots hash p i (n + 1) result
  | found {i : Nat} {e : Entry α} (at_i : slots[i]? = some (.full e))
      (fits : e.hash = hash ∧ p e.key) : Searches slots hash p i 1 (some e.key)
  | other {i n : Nat} {e : Entry α} {result : Option Ref} (at_i : slots[i]? = some (.full e))
      (fails : ¬(e.hash = hash ∧ p e.key))
      (rest : Searches slots hash p (after slots i) n result) :
    Searches slots hash p i (n + 1) result

section Search

variable {slots : Array (Slot α)}

/-- An empty slot ahead is still ahead behind a slot that is not empty. -/
theorem empty_ahead {i steps : Nat} {s : Slot α} (hi : slots[i]? = some s) (hs : s ≠ .empty)
    (gap : ∃ d < steps + 1, slots[(i + d) % slots.size]? = some .empty) :
    ∃ d < steps, slots[(after slots i + d) % slots.size]? = some .empty := by
  obtain ⟨d, hd, empty⟩ := gap
  cases d with
  | zero =>
    rw [Nat.add_zero, Nat.mod_eq_of_lt (Array.getElem?_eq_some_iff.1 hi).1, hi] at empty
    exact absurd (Option.some.inj empty) hs
  | succ d => exact ⟨d, by omega, by rw [after_add]; exact empty⟩

/-- The bounded search is the search without a bound if an empty slot is in reach. -/
theorem probes_probe {key : Ref} {steps : Nat} : ∀ {i : Nat} {spare : Option Nat},
    i < slots.size → (∃ d < steps, slots[(i + d) % slots.size]? = some .empty) →
    ∃ n ≤ steps, ∃ j, Probes slots key i spare n j ∧ probe slots key steps i spare = some j := by
  induction steps with
  | zero =>
    rintro i spare - ⟨d, hd, -⟩
    cases hd
  | succ steps ih =>
    intro i spare hi gap
    have next : after slots i < slots.size := Nat.mod_lt _ (by omega)
    have at_i : slots[i]? = some slots[i] := Array.getElem?_eq_getElem hi
    simp only [probe, at_i]
    cases hs : slots[i] with
    | empty =>
      rw [hs] at at_i
      exact ⟨1, by omega, _, .empty at_i, rfl⟩
    | tombstone =>
      rw [hs] at at_i
      obtain ⟨n, hn, j, rest, result⟩ := ih next (empty_ahead at_i (by simp) gap)
      exact ⟨n + 1, by omega, j, .tombstone at_i rest, result⟩
    | full e =>
      rw [hs] at at_i
      by_cases hk : e.key = key
      · exact ⟨1, by omega, i, .found at_i hk, if_pos hk⟩
      · obtain ⟨n, hn, j, rest, result⟩ := ih next (empty_ahead at_i (by simp) gap)
        exact ⟨n + 1, by omega, j, .other at_i hk rest, (if_neg hk).trans result⟩

theorem searches_collect {hash : UInt32} {p : Ref → Bool} {steps : Nat} : ∀ {i : Nat},
    i < slots.size → (∃ d < steps, slots[(i + d) % slots.size]? = some .empty) →
    ∃ n ≤ steps, Searches slots hash p i n ((collect slots hash steps i).find? p) := by
  induction steps with
  | zero =>
    rintro i - ⟨d, hd, -⟩
    cases hd
  | succ steps ih =>
    intro i hi gap
    have next : after slots i < slots.size := Nat.mod_lt _ (by omega)
    have at_i : slots[i]? = some slots[i] := Array.getElem?_eq_getElem hi
    simp only [collect, at_i]
    cases hs : slots[i] with
    | empty =>
      rw [hs] at at_i
      exact ⟨1, by omega, .empty at_i⟩
    | tombstone =>
      rw [hs] at at_i
      obtain ⟨n, hn, rest⟩ := ih next (empty_ahead at_i (by simp) gap)
      exact ⟨n + 1, by omega, .tombstone at_i rest⟩
    | full e =>
      rw [hs] at at_i
      obtain ⟨n, hn, rest⟩ := ih next (empty_ahead at_i (by simp) gap)
      by_cases hh : e.hash = hash
      · cases hp : p e.key with
        | true =>
          simp only [if_pos hh, List.find?_cons, hp]
          exact ⟨1, by omega, .found at_i ⟨hh, hp⟩⟩
        | false =>
          simp only [if_pos hh, List.find?_cons, hp]
          exact ⟨n + 1, by omega, .other at_i (fun h => by simp [hp] at h) rest⟩
      · simp only [if_neg hh]
        exact ⟨n + 1, by omega, .other at_i (fun h => hh h.1) rest⟩

/-- Both searches come to an end after at most as many steps as there are slots, for whatever they
look, and the bounded ones have their results. -/
structure Ends (slots : Array (Slot α)) : Prop where
  find (key : Ref) (hash : UInt32) : ∃ n ≤ slots.size, ∃ j,
    Probes slots key (home slots hash) none n j ∧ find slots key hash = some j
  search (hash : UInt32) (p : Ref → Bool) : ∃ n ≤ slots.size,
    Searches slots hash p (home slots hash) n
      ((collect slots hash slots.size (home slots hash)).find? p)

theorem ends_of_gap {m : Nat} (gap : slots[m]? = some .empty) : Ends slots := by
  have hm : m < slots.size := (Array.getElem?_eq_some_iff.1 gap).1
  have ahead (hash : UInt32) :
      ∃ d < slots.size, slots[(home slots hash + d) % slots.size]? = some .empty := by
    obtain ⟨d, hd, at_m⟩ := exists_offset (home_lt (by omega)) hm
    exact ⟨d, hd, by rw [at_m]; exact gap⟩
  exact
    { find := fun key hash => probes_probe (home_lt (by omega)) (ahead hash)
      search := fun hash p => searches_collect (home_lt (by omega)) (ahead hash) }

theorem ends_of_used_lt (h : used slots < slots.size) : Ends slots := by
  obtain ⟨m, gap⟩ := exists_empty h
  exact ends_of_gap gap

end Search

/-- What can be done with a table. Keys come with any hash. -/
inductive Operation (α : Type) where
  | insert (key : Ref) (hash : UInt32) (value : α)
  | get (key : Ref) (hash : UInt32)
  | modify (key : Ref) (hash : UInt32) (f : α → α)
  | erase (key : Ref) (hash : UInt32)
  | findKey (hash : UInt32) (p : Ref → Bool)
  | entries
  | size
  | isEmpty

/-- A table after an operation. -/
def apply (t : Table α) : Operation α → Table α
  | .insert key hash value => (t.insert key hash value).1
  | .modify key hash f => t.modify key hash f
  | .erase key hash => (t.erase key hash).1
  | .get .. | .findKey .. | .entries | .size | .isEmpty => t

/-- A new table after a sequence of operations. -/
def afterAll (ops : List (Operation α)) : Table α := ops.foldl apply empty

/-- If an operation names a key, it does so with the hash of the key. -/
def Operation.Keeps (hashOf : Ref → UInt32) : Operation α → Prop
  | .insert key hash _ | .get key hash | .modify key hash _ | .erase key hash => hash = hashOf key
  | .findKey .. | .entries | .size | .isEmpty => True

/-- The count of a table covers the slots that are not empty, and leaves a quarter of all slots. -/
structure Roomy (t : Table α) : Prop where
  capacity : t.capacity = 0 ∨ ∃ k, t.capacity = 8 * 2 ^ k
  taken : used t.slots ≤ t.taken
  room : 4 * t.taken ≤ 3 * t.capacity

theorem roomy_empty : Roomy (empty : Table α) where
  capacity := .inl rfl
  taken := Nat.le_refl 0
  room := Nat.le_refl 0

theorem grow_eq {n : Nat} (h : n = 0 ∨ ∃ k, n = 8 * 2 ^ k) : ∃ k, grow n = 8 * 2 ^ k := by
  obtain rfl | ⟨k, rfl⟩ := h
  · exact ⟨0, rfl⟩
  · refine ⟨k + 1, ?_⟩
    have : 0 < 2 ^ k := Nat.two_pow_pos k
    rw [grow, if_neg (by omega), Nat.pow_succ, Nat.mul_assoc]

section Placing

variable {slots : Array (Slot α)}

theorem used_replicate (n : Nat) : used (Array.replicate n (.empty : Slot α)) = 0 :=
  Array.countP_eq_zero.2 fun s hs => by
    rw [Array.eq_of_mem_replicate hs]
    simp [Slot.used]

theorem size_place (e : Entry α) : (place slots e).size = slots.size := by
  unfold place
  split
  next => rfl
  next => exact Array.size_setIfInBounds

theorem used_place_le (e : Entry α) : used (place slots e) ≤ used slots + 1 := by
  unfold place
  split
  next => exact Nat.le_succ _
  next j _ =>
    by_cases hj : j < slots.size
    · rw [used_set hj]
      split <;> omega
    · rw [Array.setIfInBounds, dif_neg hj]
      exact Nat.le_succ _

theorem used_foldl_place_le (slots : Array (Slot α)) (es : List (Entry α)) :
    used (es.foldl place slots) ≤ used slots + es.length ∧
      (es.foldl place slots).size = slots.size := by
  induction es generalizing slots with
  | nil => exact ⟨Nat.le_refl _, rfl⟩
  | cons e es ih =>
    obtain ⟨count, size⟩ := @ih (place slots e)
    have : used (place slots e) ≤ used slots + 1 := used_place_le e
    rw [List.foldl_cons, List.length_cons]
    exact ⟨by omega, size.trans (size_place e)⟩

end Placing

namespace Roomy

variable {t : Table α}

theorem used_lt (h : t.Roomy) (hc : t.capacity ≠ 0) : used t.slots < t.slots.size := by
  have taken := h.taken
  have room := h.room
  simp only [Table.capacity] at hc room
  omega

/-- The slots of a larger table have room for all entries and one more. -/
theorem room_grow (h : t.Roomy) : 4 * (t.entries.length + 1) ≤ 3 * grow t.capacity := by
  have length := length_entries_le t
  have taken := h.taken
  have room := h.room
  unfold grow
  split <;> omega

/-- While entries move to a larger table, an empty slot is left. -/
theorem used_moved_lt (h : t.Roomy) {live : List (Entry α)} (part : live <+: t.entries) :
    used (live.foldl place (Array.replicate (grow t.capacity) .empty)) <
      (live.foldl place (Array.replicate (grow t.capacity) .empty)).size := by
  obtain ⟨count, size⟩ := used_foldl_place_le (Array.replicate (grow t.capacity) .empty) live
  have length := part.length_le
  have room := h.room_grow
  rw [used_replicate] at count
  rw [Array.size_replicate] at size
  omega

theorem reserve (h : t.Roomy) :
    t.reserve.Roomy ∧ 4 * (t.reserve.taken + 1) ≤ 3 * t.reserve.capacity := by
  unfold Table.reserve
  split
  next =>
    obtain ⟨count, size⟩ := used_foldl_place_le (Array.replicate (grow t.capacity) .empty)
      t.entries
    have room := h.room_grow
    rw [used_replicate, Nat.zero_add] at count
    rw [Array.size_replicate] at size
    have same : (t.resize (grow t.capacity)).capacity = grow t.capacity := size
    have all : (t.resize (grow t.capacity)).taken = t.entries.length := rfl
    refine ⟨⟨.inr ?_, count, ?_⟩, ?_⟩
    · rw [same]
      exact grow_eq h.capacity
    · rw [same, all]
      omega
    · rw [same, all]
      exact room
  next enough => exact ⟨h, by omega⟩

/-- Room for one more key leaves an empty slot. -/
theorem used_reserve_lt (h : t.Roomy) : used t.reserve.slots < t.reserve.slots.size := by
  obtain ⟨roomy, room⟩ := h.reserve
  exact roomy.used_lt (by omega)

theorem of_slots {t' : Table α} (h : t.Roomy) (size : t'.slots.size = t.slots.size)
    (count : used t'.slots = used t.slots) (taken : t'.taken = t.taken) : t'.Roomy := by
  have same : t'.capacity = t.capacity := size
  exact
    { capacity := same ▸ h.capacity
      taken := by
        rw [count, taken]
        exact h.taken
      room := by
        rw [taken, same]
        exact h.room }

end Roomy

section Changes

variable {t : Table α}

/-- Inserting fills one slot of the table that has room for it, and counts it if it was empty. -/
theorem insert_fills (h : t.Roomy) (key : Ref) (hash : UInt32) (v : α) :
    ∃ j, ∃ hj : j < t.reserve.slots.size, (t.insert key hash v).1 =
      ⟨t.reserve.slots.setIfInBounds j (.full ⟨key, hash, v⟩),
        t.reserve.taken + if t.reserve.slots[j].used then 0 else 1⟩ := by
  obtain ⟨n, -, j, probes, found⟩ := (ends_of_used_lt h.used_reserve_lt).find key hash
  obtain ⟨m, gap⟩ := exists_empty h.used_reserve_lt
  have hm : m < t.reserve.slots.size := (Array.getElem?_eq_some_iff.1 gap).1
  have hj : j < t.reserve.slots.size := by
    obtain ⟨d, -, at_j, -⟩ | ⟨-, spare | ⟨-, d, -, at_j, -⟩⟩ :=
      probe_eq_some (home_lt (by omega)) found
    · exact at_j ▸ Nat.mod_lt _ (by omega)
    · cases spare
    · exact at_j ▸ Nat.mod_lt _ (by omega)
  have slot : t.reserve.slots[j]? = some t.reserve.slots[j] := Array.getElem?_eq_getElem hj
  refine ⟨j, hj, ?_⟩
  unfold Table.insert
  simp only [found, slot]
  cases t.reserve.slots[j] <;> rfl

/-- Changing the value of a key fills a slot that is full, or none. -/
theorem modify_refills (t : Table α) (key : Ref) (hash : UInt32) (f : α → α) :
    (t.modify key hash f).slots.size = t.slots.size ∧
      used (t.modify key hash f).slots = used t.slots ∧ (t.modify key hash f).taken = t.taken := by
  unfold Table.modify
  split
  next => exact ⟨rfl, rfl, rfl⟩
  next j _ =>
    split
    next e at_j =>
      obtain ⟨hj, full⟩ := Array.getElem?_eq_some_iff.1 at_j
      refine ⟨Array.size_setIfInBounds, ?_, rfl⟩
      rw [used_set hj, full, if_pos (by rfl), Nat.add_zero]
    next => exact ⟨rfl, rfl, rfl⟩

/-- Erasing leaves a tombstone in a slot that was full, or nothing changes. -/
theorem erase_buries (t : Table α) (key : Ref) (hash : UInt32) :
    (t.erase key hash).1.slots.size = t.slots.size ∧
      used (t.erase key hash).1.slots = used t.slots ∧ (t.erase key hash).1.taken = t.taken := by
  unfold Table.erase
  split
  next => exact ⟨rfl, rfl, rfl⟩
  next j _ =>
    split
    next e at_j =>
      obtain ⟨hj, full⟩ := Array.getElem?_eq_some_iff.1 at_j
      exact ⟨Array.size_setIfInBounds, used_remove hj (by rw [full]; rfl), rfl⟩
    next => exact ⟨rfl, rfl, rfl⟩

theorem Roomy.insert (h : t.Roomy) (key : Ref) (hash : UInt32) (v : α) :
    (t.insert key hash v).1.Roomy := by
  obtain ⟨j, hj, result⟩ := insert_fills h key hash v
  obtain ⟨roomy, room⟩ := h.reserve
  have size : (t.reserve.slots.setIfInBounds j (.full ⟨key, hash, v⟩)).size =
      t.reserve.slots.size := Array.size_setIfInBounds
  have taken := roomy.taken
  rw [result]
  refine ⟨?_, ?_, ?_⟩
  · rw [Table.capacity, size]
    exact roomy.capacity
  · rw [used_set hj]
    exact Nat.add_le_add_right taken _
  · simp only [Table.capacity, size] at room ⊢
    split <;> omega

theorem Roomy.apply (h : t.Roomy) (o : Operation α) : (t.apply o).Roomy := by
  cases o with
  | insert key hash value => exact h.insert key hash value
  | modify key hash f =>
    obtain ⟨size, count, taken⟩ := modify_refills t key hash f
    exact h.of_slots size count taken
  | erase key hash =>
    obtain ⟨size, count, taken⟩ := erase_buries t key hash
    exact h.of_slots size count taken
  | _ => exact h

theorem roomy_afterAll (ops : List (Operation α)) : (afterAll ops).Roomy := by
  suffices ∀ t : Table α, t.Roomy → (ops.foldl Table.apply t).Roomy from this _ roomy_empty
  induction ops with
  | nil => exact fun _ h => h
  | cons o ops ih => exact fun t h => ih _ (h.apply o)

end Changes

/-- The number of tombstones. -/
def tombstones (t : Table α) : Nat :=
  t.slots.countP fun | .tombstone => true | _ => false

theorem used_eq (t : Table α) : used t.slots = t.size + t.tombstones := by
  rw [used, size, entries, tombstones, ← Array.countP_toList, ← Array.countP_toList]
  induction t.slots.toList with
  | nil => rfl
  | cons s ss ih =>
    cases s <;> simp only [List.countP_cons, List.filterMap_cons, Slot.used, Slot.entry?, ih,
      List.length_cons, if_true, Bool.false_eq_true, if_false] <;> omega

/-- The count is the number of slots that are not empty, and a finite map is represented. -/
structure Exact (hashOf : Ref → UInt32) (t : Table α) : Prop where
  represents : ∃ d, Represents hashOf t d
  taken : t.taken = used t.slots

namespace Exact

variable {hashOf : Ref → UInt32} {t : Table α}

/-- Making room counts the entries, which are moved one slot each. -/
theorem reserve (h : t.Exact hashOf) : t.reserve.taken = used t.reserve.slots := by
  obtain ⟨d, r⟩ := h.represents
  obtain ⟨ordered, holds, count, -⟩ := r.sound.reserve
  have moved : (t.entries.map Entry.key).Perm (t.reserve.entries.map Entry.key) := by
    refine (List.perm_ext_iff_of_nodup r.sound.ordered.nodup_keys ordered.nodup_keys).2 fun key => ?_
    simp only [List.mem_map, mem_entries, holds]
  have length : t.entries.length = t.reserve.entries.length := by
    simpa only [List.length_map] using moved.length_eq
  by_cases full : 3 * t.capacity < 4 * (t.taken + 1)
  · have grown : t.reserve.taken = t.entries.length := by rw [Table.reserve, if_pos full, resize]
    refine Nat.le_antisymm ?_ count
    rw [grown, length]
    exact length_entries_le _
  · rw [Table.reserve, if_neg full]
    exact h.taken

theorem apply (h : t.Exact hashOf) (roomy : t.Roomy) {o : Operation α} (keeps : o.Keeps hashOf) :
    (t.apply o).Exact hashOf := by
  obtain ⟨d, r⟩ := h.represents
  cases o with
  | insert key hash value =>
    obtain rfl : hash = hashOf key := keeps
    obtain ⟨j, hj, result⟩ := insert_fills roomy key (hashOf key) value
    refine ⟨⟨_, r.insert key value⟩, ?_⟩
    simp only [Table.apply, result, used_set hj, h.reserve]
  | modify key hash f =>
    obtain rfl : hash = hashOf key := keeps
    obtain ⟨-, count, taken⟩ := modify_refills t key (hashOf key) f
    refine ⟨?_, taken.trans (h.taken.trans count.symm)⟩
    cases hv : d.lookup key with
    | some v => exact ⟨_, r.modify hv f⟩
    | none =>
      rw [Table.apply, r.modify_absent hv f]
      exact ⟨d, r⟩
  | erase key hash =>
    obtain rfl : hash = hashOf key := keeps
    obtain ⟨-, count, taken⟩ := erase_buries t key (hashOf key)
    exact ⟨⟨_, (r.erase key).2⟩, taken.trans (h.taken.trans count.symm)⟩
  | _ => exact h

theorem afterAll {ops : List (Operation α)} (keeps : ∀ o ∈ ops, o.Keeps hashOf) :
    (afterAll ops).Exact hashOf := by
  suffices ∀ t : Table α, t.Roomy → t.Exact hashOf → (ops.foldl Table.apply t).Exact hashOf from
    this _ roomy_empty ⟨⟨∅, represents_empty⟩, rfl⟩
  induction ops with
  | nil => exact fun _ _ h => h
  | cons o ops ih =>
    intro t roomy h
    obtain ⟨first, rest⟩ := List.forall_mem_cons.1 keeps
    exact ih rest _ (roomy.apply o) (h.apply roomy first)

end Exact

/-- What keeps the searches of a table from going on for ever. -/
structure Terminates (t : Table α) : Prop where
  capacity : t.capacity = 0 ∨ ∃ k, t.capacity = 8 * 2 ^ k
  covered : used t.slots ≤ t.taken
  room : 4 * t.taken ≤ 3 * t.capacity
  gap : t.capacity ≠ 0 → ∃ m : Nat, t.slots[m]? = some .empty
  /-- looking up, changing and erasing -/
  searches : t.capacity ≠ 0 → Ends t.slots
  /-- inserting, after room has been made -/
  inserting : Ends t.reserve.slots
  /-- moving the entries one by one to the slots of a larger table -/
  moving : ∀ live, live <+: t.entries →
    Ends (live.foldl place (Array.replicate (grow t.capacity) .empty))

/-- Whatever has been done with a table, its searches terminate; and its count is exact if each key
always came with one hash. -/
theorem afterAll_terminates (ops : List (Operation α)) :
    (afterAll ops).Terminates ∧ ∀ hashOf : Ref → UInt32, (∀ o ∈ ops, o.Keeps hashOf) →
      (afterAll ops).taken = (afterAll ops).size + (afterAll ops).tombstones := by
  have roomy := roomy_afterAll ops
  refine ⟨?_, fun hashOf keeps => ?_⟩
  · exact
      { capacity := roomy.capacity
        covered := roomy.taken
        room := roomy.room
        gap := fun hc => exists_empty (roomy.used_lt hc)
        searches := fun hc => ends_of_used_lt (roomy.used_lt hc)
        inserting := ends_of_used_lt roomy.used_reserve_lt
        moving := fun live part => ends_of_used_lt (roomy.used_moved_lt part) }
  · rw [← used_eq]
    exact (Exact.afterAll keeps).taken

/-- Key 0 is in two slots, under the hashes 6 and 7, until the table grows. Then both entries go to
the same slot, and both are counted. -/
example :
    let t : Table Nat := afterAll [.insert ⟨0⟩ 6 0, .insert ⟨1⟩ 7 0, .insert ⟨2⟩ 6 0,
      .insert ⟨0⟩ 7 0, .insert ⟨3⟩ 3 0, .insert ⟨4⟩ 4 0, .insert ⟨5⟩ 5 0]
    t.capacity = 16 ∧ t.taken = 7 ∧ t.size = 6 ∧ t.tombstones = 0 := by
  decide +kernel

end Table
end StackScript
