import Mathlib.Data.Finmap
import StackScript.Proofs.Store.Table

/-!
# StackScript.Proofs.Store.Dictionary

A table is a finite map from keys to values, whatever hashes the keys come with.

* `Table.Request`, `Table.Answer`, `Table.answers`: a table asked one thing after the other.
* `Dictionary.Answers`: what a finite map answers, and what it is afterwards.
* `Table.Represents`: the table has the entries of the map.
* `Table.answers_empty`: a new table answers every sequence of requests as the empty map does.
-/

namespace StackScript

/-- A finite map from handles. -/
abbrev Dictionary (α : Type) : Type := Finmap fun _ : Ref => α

namespace Table

variable {α : Type}

/-- What a table can be asked. A key comes with the same hash every time, so requests name keys
only. -/
inductive Request (α : Type) where
  | insert (key : Ref) (value : α)
  | get (key : Ref)
  | modify (key : Ref) (f : α → α)
  | erase (key : Ref)
  | findKey (hash : UInt32) (p : Ref → Bool)
  | entries
  | size
  | isEmpty

inductive Answer (α : Type) where
  | flag (b : Bool)
  | value (v : Option α)
  | key (k : Option Ref)
  | entries (es : List (Entry α))
  | count (n : Nat)

/-- The answer to a request, and the table afterwards. A request to change a value is answered
with the new value. -/
def answer (hashOf : Ref → UInt32) (t : Table α) : Request α → Answer α × Table α
  | .insert key value =>
    let (t', new) := t.insert key (hashOf key) value
    (.flag new, t')
  | .get key => (.value (t.get? key (hashOf key)), t)
  | .modify key f =>
    let t' := t.modify key (hashOf key) f
    (.value (t'.get? key (hashOf key)), t')
  | .erase key =>
    let (t', present) := t.erase key (hashOf key)
    (.flag present, t')
  | .findKey hash p => (.key (t.findKey? hash p), t)
  | .entries => (.entries t.entries, t)
  | .size => (.count t.size, t)
  | .isEmpty => (.flag t.isEmpty, t)

/-- The answers to a sequence of requests. -/
def answers (hashOf : Ref → UInt32) : Table α → List (Request α) → List (Answer α)
  | _, [] => []
  | t, q :: qs => (t.answer hashOf q).1 :: answers hashOf (t.answer hashOf q).2 qs

end Table

namespace Dictionary

variable {α : Type}

/-- What a finite map answers to a request, and what it is afterwards. Which of several keys is
found, and in what order the entries come, is left open. -/
inductive Answers (hashOf : Ref → UInt32) (d : Dictionary α) :
    Table.Request α → Table.Answer α → Dictionary α → Prop where
  | insert (key : Ref) (value : α) :
    Answers hashOf d (.insert key value) (.flag (decide (key ∉ d.keys)))
      (d.insert key value)
  | get (key : Ref) : Answers hashOf d (.get key) (.value (d.lookup key)) d
  | modify {key : Ref} {f : α → α} {value : α} (present : d.lookup key = some value) :
    Answers hashOf d (.modify key f) (.value (some (f value))) (d.insert key (f value))
  | modifyAbsent {key : Ref} {f : α → α} (absent : d.lookup key = none) :
    Answers hashOf d (.modify key f) (.value none) d
  | erase (key : Ref) :
    Answers hashOf d (.erase key) (.flag (decide (key ∈ d.keys))) (d.erase key)
  | found {hash : UInt32} {p : Ref → Bool} {key : Ref} (live : key ∈ d.keys)
      (same : hashOf key = hash) (holds : p key) :
    Answers hashOf d (.findKey hash p) (.key (some key)) d
  | notFound {hash : UInt32} {p : Ref → Bool}
      (none_holds : ∀ key ∈ d.keys, hashOf key = hash → ¬p key) :
    Answers hashOf d (.findKey hash p) (.key none) d
  | entries {es : List (Entry α)} (once : (es.map Entry.key).Nodup)
      (live : ∀ key value, ⟨key, hashOf key, value⟩ ∈ es ↔ d.lookup key = some value)
      (hashed : ∀ e ∈ es, e.hash = hashOf e.key) :
    Answers hashOf d .entries (.entries es) d
  | size : Answers hashOf d .size (.count (d.keys).card) d
  | isEmpty : Answers hashOf d .isEmpty (.flag (decide (d.keys = ∅))) d

/-- The answers of a finite map to one request after the other. -/
inductive AnswersAll (hashOf : Ref → UInt32) :
    Dictionary α → List (Table.Request α) → List (Table.Answer α) → Prop where
  | nil (d : Dictionary α) : AnswersAll hashOf d [] []
  | cons {d d' : Dictionary α} {q : Table.Request α} {a : Table.Answer α}
      {qs : List (Table.Request α)} {as : List (Table.Answer α)} (first : Answers hashOf d q a d')
      (rest : AnswersAll hashOf d' qs as) : AnswersAll hashOf d (q :: qs) (a :: as)

end Dictionary

namespace Table

variable {α : Type} {hashOf : Ref → UInt32} {t : Table α} {d : Dictionary α} {key : Ref}

/-- A sound table with the entries of a finite map, each under the hash of its key. -/
structure Represents (hashOf : Ref → UInt32) (t : Table α) (d : Dictionary α) : Prop where
  sound : t.Sound
  entries : ∀ e, e ∈ t.entries ↔ e.hash = hashOf e.key ∧ d.lookup e.key = some e.value

theorem represents_empty : Represents hashOf (empty : Table α) (∅ : Dictionary α) where
  sound := sound_empty
  entries e := by simp [Table.entries, empty]

/-- What the slot of a key holds: its entry, or else the key is in no slot. -/
theorem Belongs.cases {slots : Array (Slot α)} {hash : UInt32} {j : Nat}
    (b : Belongs slots key hash j) :
    (∃ e, slots[j]? = some (.full e) ∧ e.key = key) ∨
      ((∀ e, slots[j]? ≠ some (.full e)) ∧ ∀ e, Holds slots e → e.key ≠ key) := by
  obtain found | ⟨free, absent⟩ := b.slot
  · exact .inl found
  · refine .inr ⟨fun e he => ?_, absent⟩
    obtain free | free := free <;> (rw [he] at free; cases free)

namespace Represents

theorem hash_eq (r : Represents hashOf t d) {e : Entry α} (he : e ∈ t.entries) (hk : e.key = key) :
    e.hash = hashOf key :=
  hk ▸ ((r.entries e).1 he).1

theorem lookup_eq_some (r : Represents hashOf t d) {v : α} :
    d.lookup key = some v ↔ ⟨key, hashOf key, v⟩ ∈ t.entries := by
  rw [r.entries]
  exact (and_iff_right rfl).symm

theorem mem_keys (r : Represents hashOf t d) :
    key ∈ d.keys ↔ ∃ e ∈ t.entries, e.key = key := by
  rw [Finmap.mem_keys, Finmap.mem_iff]
  constructor
  · rintro ⟨v, hv⟩
    exact ⟨_, r.lookup_eq_some.1 hv, rfl⟩
  · rintro ⟨e, he, rfl⟩
    exact ⟨e.value, ((r.entries e).1 he).2⟩

/-- Looking for a key comes to the entry of the key, or else the key is not in the map. -/
theorem find_cases (r : Represents hashOf t d) (key : Ref) :
    (∃ j e, find t.slots key (hashOf key) = some j ∧ Belongs t.slots key (hashOf key) j ∧
        t.slots[j]? = some (.full e) ∧ e.key = key ∧ e.hash = hashOf key ∧
        d.lookup key = some e.value) ∨
      (d.lookup key = none ∧
        ∀ j, find t.slots key (hashOf key) = some j → ∀ e, t.slots[j]? ≠ some (.full e)) := by
  have absent (h : ∀ e, Holds t.slots e → e.key ≠ key) : d.lookup key = none := by
    rw [Finmap.lookup_eq_none, ← Finmap.mem_keys, r.mem_keys]
    rintro ⟨e, he, hk⟩
    exact h e (mem_entries.1 he) hk
  by_cases hn : t.capacity = 0
  · -- a table without slots
    have bare (i : Nat) : t.slots[i]? = none := Array.getElem?_eq_none (by
      simp only [capacity] at hn
      omega)
    refine .inr ⟨absent ?_, fun j _ e he => ?_⟩
    · rintro e ⟨i, hi⟩ -
      rw [bare] at hi
      cases hi
    · rw [bare] at he
      cases he
  · have room : used t.slots < t.slots.size := by
      have taken := r.sound.taken
      have room := r.sound.room
      simp only [capacity] at hn room
      omega
    obtain ⟨j, hj, b⟩ := find_belongs r.sound.ordered
      (fun e he hk => r.hash_eq (mem_entries.2 he) hk) (exists_empty room)
    obtain ⟨e, he, hk⟩ | ⟨free, no⟩ := b.cases
    · have live := (r.entries e).1 (mem_entries.2 ⟨j, he⟩)
      exact .inl ⟨j, e, hj, b, he, hk, hk ▸ live.1, hk ▸ live.2⟩
    · refine .inr ⟨absent no, fun j' hj' => ?_⟩
      rw [hj] at hj'
      cases hj'
      exact free

theorem get?_eq (r : Represents hashOf t d) (key : Ref) :
    t.get? key (hashOf key) = d.lookup key := by
  unfold get?
  obtain ⟨j, e, hj, -, he, -, -, hv⟩ | ⟨hv, free⟩ := r.find_cases key
  · simp only [hj, he, hv]
  · rw [hv]
    split
    next => rfl
    next j hj =>
      split
      next e he => exact absurd he (free j hj e)
      next => rfl

/-- A sound table represents the map that differs in one key from the one it represented. -/
theorem of_insert (r : Represents hashOf t d) {t' : Table α} {v : α} (sound : t'.Sound)
    (holds : ∀ e, e ∈ t'.entries ↔ e = ⟨key, hashOf key, v⟩ ∨ (e ∈ t.entries ∧ e.key ≠ key)) :
    Represents hashOf t' (d.insert key v) := by
  refine ⟨sound, fun e => ?_⟩
  rw [holds, r.entries]
  by_cases hk : e.key = key
  · subst hk
    rw [Finmap.lookup_insert]
    constructor
    · rintro (h | ⟨-, ne⟩)
      · exact ⟨congrArg Entry.hash h, congrArg (some ∘ Entry.value) h.symm⟩
      · exact absurd rfl ne
    · rintro ⟨hh, hv⟩
      rw [← hh, Option.some.inj hv]
      exact .inl rfl
  · rw [Finmap.lookup_insert_of_ne _ hk]
    constructor
    · rintro (h | ⟨live, -⟩)
      · exact absurd (congrArg Entry.key h) hk
      · exact live
    · exact fun live => .inr ⟨live, hk⟩

theorem insert (r : Represents hashOf t d) (key : Ref) (v : α) :
    Represents hashOf (t.insert key (hashOf key) v).1 (d.insert key v) := by
  obtain ⟨sound, holds⟩ := r.sound.insert key (hashOf key) v fun e he hk => r.hash_eq he hk
  exact r.of_insert sound holds

/-- A key is new exactly if the map did not have it. -/
theorem insert_new (r : Represents hashOf t d) (key : Ref) (v : α) :
    (t.insert key (hashOf key) v).2 = decide (key ∉ d.keys) := by
  obtain ⟨ordered, holds, taken, room⟩ := r.sound.reserve
  have present : key ∈ d.keys ↔ ∃ e, Holds t.reserve.slots e ∧ e.key = key := by
    simp only [r.mem_keys, mem_entries, holds]
  have hash : ∀ e, Holds t.reserve.slots e → e.key = key → e.hash = hashOf key :=
    fun e he => r.hash_eq (mem_entries.2 ((holds e).1 he))
  obtain ⟨j, hj, b⟩ := find_belongs ordered hash (exists_empty (by
    simp only [capacity] at room
    omega))
  have hlt := b.lt
  have slot : t.reserve.slots[j]? = some t.reserve.slots[j] := Array.getElem?_eq_getElem hlt
  unfold Table.insert
  simp only [hj]
  obtain ⟨e, he, hk⟩ | ⟨free, absent⟩ := b.cases
  · rw [decide_eq_false (not_not.2 (present.2 ⟨e, ⟨j, he⟩, hk⟩))]
    simp only [he]
  · have no : key ∉ d.keys := fun h => by
      obtain ⟨e, he, hk⟩ := present.1 h
      exact absent e he hk
    rw [decide_eq_true no]
    simp only [slot] at free ⊢
    cases hs : t.reserve.slots[j] with
    | full e => exact absurd (congrArg some hs) (free e)
    | _ => rfl

/-- Changing the value of a key that the map has. -/
theorem modify (r : Represents hashOf t d) {v : α} (hv : d.lookup key = some v)
    (f : α → α) :
    Represents hashOf (t.modify key (hashOf key) f) (d.insert key (f v)) := by
  obtain ⟨j, e, hj, b, he, hk, hh, hv'⟩ | ⟨hv', -⟩ := r.find_cases key
  · obtain rfl : v = e.value := Option.some.inj (hv.symm.trans hv')
    have result : t.modify key (hashOf key) f =
        ⟨t.slots.setIfInBounds j (.full ⟨key, hashOf key, f e.value⟩), t.taken⟩ := by
      unfold Table.modify
      simp only [hj, he, hk, hh]
    obtain ⟨ordered, holds⟩ := r.sound.ordered.put (v := f e.value) b
    obtain ⟨hlt, at_j⟩ := Array.getElem?_eq_some_iff.1 he
    have more := used_set hlt ⟨key, hashOf key, f e.value⟩
    rw [at_j, if_pos (by rfl), Nat.add_zero] at more
    rw [result]
    refine r.of_insert ⟨ordered, ?_, ?_⟩ fun e' => ?_
    · rw [more]
      exact r.sound.taken
    · simp only [capacity, Array.size_setIfInBounds]
      exact r.sound.room
    · rw [mem_entries, holds, mem_entries]
  · rw [hv] at hv'
    cases hv'

theorem modify_absent (r : Represents hashOf t d) (hv : d.lookup key = none) (f : α → α) :
    t.modify key (hashOf key) f = t := by
  obtain ⟨j, e, -, -, -, -, -, hv'⟩ | ⟨-, free⟩ := r.find_cases key
  · rw [hv] at hv'
    cases hv'
  · unfold Table.modify
    split
    next => rfl
    next j hj =>
      split
      next e he => exact absurd he (free j hj e)
      next => rfl

end Represents

section Remove

variable {slots : Array (Slot α)} {j : Nat} {e : Entry α}

/-- A slot that becomes a tombstone lets every probe pass that passed it before. -/
theorem Ordered.remove (ho : Ordered slots) (he : slots[j]? = some (.full e)) :
    Ordered (slots.setIfInBounds j .tombstone) ∧
      ∀ e', Holds (slots.setIfInBounds j .tombstone) e' ↔ Holds slots e' ∧ e'.key ≠ e.key := by
  have hj : j < slots.size := (Array.getElem?_eq_some_iff.1 he).1
  have size : (slots.setIfInBounds j .tombstone).size = slots.size := Array.size_setIfInBounds
  have slot (i : Nat) : (slots.setIfInBounds j .tombstone)[i]? =
      if j = i then some .tombstone else slots[i]? := by
    rw [Array.getElem?_setIfInBounds, if_pos hj]
  have full {i : Nat} {e' : Entry α} :
      (slots.setIfInBounds j .tombstone)[i]? = some (.full e') ↔
        j ≠ i ∧ slots[i]? = some (.full e') := by
    rw [slot]
    split
    next h => simp [h]
    next h => simp [h]
  have reach {i d : Nat} (h : Reach slots i d) : Reach (slots.setIfInBounds j .tombstone) i d := by
    intro k hk
    rw [size, slot]
    split
    next => simp
    next => exact h k hk
  refine ⟨⟨?_, ?_⟩, fun e' => ?_⟩
  · intro i e' hi
    simp only [home, size]
    obtain ⟨d, hd, at_i, way⟩ := ho.reach (full.1 hi).2
    exact ⟨d, hd, at_i, reach way⟩
  · intro i i' e₁ e₂ hi hi' same
    exact ho.keys (full.1 hi).2 (full.1 hi').2 same
  · constructor
    · rintro ⟨i, hi⟩
      obtain ⟨ne, hi⟩ := full.1 hi
      exact ⟨⟨i, hi⟩, fun same => ne (ho.keys he hi same.symm)⟩
    · rintro ⟨⟨i, hi⟩, ne⟩
      refine ⟨i, full.2 ⟨?_, hi⟩⟩
      rintro rfl
      rw [he] at hi
      cases hi
      exact ne rfl

theorem used_remove (hj : j < slots.size) (hu : slots[j].used = true) :
    used (slots.setIfInBounds j .tombstone) = used slots := by
  have le : 1 ≤ slots.countP Slot.used :=
    Array.one_le_countP_iff.2 ⟨slots[j], Array.getElem_mem hj, hu⟩
  have tombstone : (Slot.tombstone : Slot α).used = true := rfl
  rw [used, Array.setIfInBounds, dif_pos hj, Array.countP_set, if_pos hu, if_pos tombstone, used]
  omega

end Remove

namespace Represents

theorem erase (r : Represents hashOf t d) (key : Ref) :
    (t.erase key (hashOf key)).2 = decide (key ∈ d.keys) ∧
      Represents hashOf (t.erase key (hashOf key)).1 (d.erase key) := by
  have lookup (e : Entry α) : (d.erase key).lookup e.key = some e.value ↔
      d.lookup e.key = some e.value ∧ e.key ≠ key := by
    by_cases hk : e.key = key
    · rw [hk, Finmap.lookup_erase]
      simp
    · rw [Finmap.lookup_erase_ne hk, and_iff_left hk]
  obtain ⟨j, e, hj, b, he, hk, hh, hv⟩ | ⟨hv, free⟩ := r.find_cases key
  · have result : t.erase key (hashOf key) =
        ({ t with slots := t.slots.setIfInBounds j .tombstone }, true) := by
      unfold Table.erase
      simp only [hj, he]
    obtain ⟨ordered, holds⟩ := r.sound.ordered.remove he
    obtain ⟨hlt, at_j⟩ := Array.getElem?_eq_some_iff.1 he
    rw [result]
    refine ⟨(decide_eq_true ?_).symm, ⟨ordered, ?_, ?_⟩, fun e' => ?_⟩
    · exact Finmap.mem_keys.2 (Finmap.mem_of_lookup_eq_some hv)
    · rw [used_remove hlt (by rw [at_j]; rfl)]
      exact r.sound.taken
    · simp only [capacity, Array.size_setIfInBounds]
      exact r.sound.room
    · rw [mem_entries, holds, ← mem_entries, r.entries, lookup, hk, and_assoc]
  · have result : t.erase key (hashOf key) = (t, false) := by
      unfold Table.erase
      split
      next => rfl
      next j hj =>
        split
        next e he => exact absurd he (free j hj e)
        next => rfl
    have no : key ∉ d := Finmap.lookup_eq_none.1 hv
    rw [result]
    refine ⟨(decide_eq_false fun h => no (Finmap.mem_keys.1 h)).symm, r.sound, fun e => ?_⟩
    rw [r.entries, lookup]
    refine and_congr_right fun _ => (and_iff_left_of_imp ?_).symm
    rintro live rfl
    exact no (Finmap.mem_of_lookup_eq_some live)

/-- The key that is found is one of the live keys with the hash for which the predicate holds. -/
theorem findKey? (r : Represents hashOf t d) (hash : UInt32) (p : Ref → Bool) :
    Dictionary.Answers hashOf d (.findKey hash p) (.key (t.findKey? hash p)) d := by
  have candidate {key : Ref} : key ∈ t.candidates hash ↔ key ∈ d.keys ∧ hashOf key = hash := by
    rw [r.sound.mem_candidates, r.mem_keys]
    constructor
    · rintro ⟨e, he, rfl, rfl⟩
      exact ⟨⟨e, he, rfl⟩, (r.hash_eq he rfl).symm⟩
    · rintro ⟨⟨e, he, rfl⟩, rfl⟩
      exact ⟨e, he, rfl, r.hash_eq he rfl⟩
  cases hf : t.findKey? hash p with
  | some key =>
    obtain ⟨live, same⟩ := candidate.1 (List.mem_of_find?_eq_some hf)
    exact .found live same (List.find?_some hf)
  | none =>
    exact .notFound fun key live same => List.find?_eq_none.1 hf key (candidate.2 ⟨live, same⟩)

theorem size_eq (r : Represents hashOf t d) : t.size = (d.keys).card := by
  have keys : (t.entries.map Entry.key).toFinset = d.keys := by
    ext key
    rw [List.mem_toFinset, List.mem_map, r.mem_keys]
  rw [← keys, List.toFinset_card_of_nodup r.sound.ordered.nodup_keys, List.length_map, size]

theorem isEmpty_eq (r : Represents hashOf t d) : t.isEmpty = decide (d.keys = ∅) := by
  rw [Table.isEmpty, r.size_eq, Bool.beq_eq_decide_eq]
  exact decide_eq_decide.2 Finset.card_eq_zero

/-- One request: the table answers as the map does and represents it again. -/
theorem answer (r : Represents hashOf t d) (q : Request α) :
    ∃ d', Dictionary.Answers hashOf d q (t.answer hashOf q).1 d' ∧
      Represents hashOf (t.answer hashOf q).2 d' := by
  cases q with
  | insert key value =>
    refine ⟨_, ?_, r.insert key value⟩
    have new : Dictionary.Answers hashOf d _ _ _ := .insert key value
    rwa [← r.insert_new] at new
  | get key =>
    refine ⟨d, ?_, r⟩
    rw [Table.answer, r.get?_eq]
    exact .get key
  | modify key f =>
    cases hv : d.lookup key with
    | some v =>
      have r' := r.modify hv f
      refine ⟨_, ?_, r'⟩
      rw [Table.answer, r'.get?_eq, Finmap.lookup_insert]
      exact .modify hv
    | none =>
      have same := r.modify_absent hv f
      refine ⟨d, ?_, ?_⟩
      · rw [Table.answer, same, r.get?_eq, hv]
        exact .modifyAbsent hv
      · rw [Table.answer, same]
        exact r
  | erase key =>
    obtain ⟨present, r'⟩ := r.erase key
    refine ⟨_, ?_, r'⟩
    have erased : Dictionary.Answers hashOf d _ _ _ := .erase key
    rwa [← present] at erased
  | findKey hash p => exact ⟨d, r.findKey? hash p, r⟩
  | entries =>
    exact ⟨d, .entries r.sound.ordered.nodup_keys (fun _ _ => r.lookup_eq_some.symm)
      (fun e he => r.hash_eq he rfl), r⟩
  | size =>
    refine ⟨d, ?_, r⟩
    rw [Table.answer, r.size_eq]
    exact .size
  | isEmpty =>
    refine ⟨d, ?_, r⟩
    rw [Table.answer, r.isEmpty_eq]
    exact .isEmpty

theorem answers (r : Represents hashOf t d) (qs : List (Request α)) :
    Dictionary.AnswersAll hashOf d qs (t.answers hashOf qs) := by
  induction qs generalizing t d with
  | nil => exact .nil d
  | cons q qs ih =>
    obtain ⟨d', first, r'⟩ := r.answer q
    exact .cons first (ih r')

end Represents

/-- A new table answers every sequence of requests as a finite map that is empty at first. -/
theorem answers_empty (hashOf : Ref → UInt32) (qs : List (Request α)) :
    Dictionary.AnswersAll hashOf (∅ : Dictionary α) qs (answers hashOf empty qs) :=
  represents_empty.answers qs

end Table
end StackScript
