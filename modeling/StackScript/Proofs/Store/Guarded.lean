import StackScript.Proofs.Store.Probing
import StackScript.Store.Heap

/-!
# StackScript.Proofs.Store.Guarded

The table once more, where a search that takes a slot outside of the table, or the last slot of a
table without slots, gives nothing at all.

* `Guarded.probe`, `Guarded.find`: the search for a key. `Guarded.get?`, `Guarded.insert`,
  `Guarded.erase`, `Guarded.findKey?`: the operations that search.
* `Guarded.get?_eq`, `Guarded.insert_eq`, `Guarded.erase_eq`, `Guarded.findKey?_eq`: they never do,
  whatever the table is.
* `Heap.guardedIntern`: interning, which searches the table of strings.
-/

namespace StackScript
namespace Table

variable {α : Type} {slots : Array (Slot α)} {key : Ref} {hash : UInt32} {i j : Nat}

theorem after_lt (h : 0 < slots.size) : after slots i < slots.size := Nat.mod_lt _ h

/-- What a search finds is a slot of the table. -/
theorem find_lt (h : find slots key hash = some j) : j < slots.size := by
  by_cases size : 0 < slots.size
  · obtain ⟨d, -, rfl, -⟩ | ⟨-, spare | ⟨-, d, -, rfl, -⟩⟩ := probe_eq_some (home_lt size) h
    · exact Nat.mod_lt _ size
    · cases spare
    · exact Nat.mod_lt _ size
  · rw [find, Nat.eq_zero_of_not_pos size, probe] at h
    cases h

theorem find_of_isEmpty (h : slots.isEmpty) : find slots key hash = none := by
  rw [find, Array.isEmpty_iff_size_eq_zero.1 h, probe]

namespace Guarded

/-- The slot where probing begins. A table without slots has no last one to count from. -/
def home (slots : Array (Slot α)) (hash : UInt32) : Option Nat :=
  if 0 < slots.size then some (Table.home slots hash) else none

def probe (slots : Array (Slot α)) (key : Ref) : Nat → Nat → Option Nat → Option (Option Nat)
  | 0, _, spare => some spare
  | steps + 1, i, spare => do
    match ← slots[i]? with
    | .empty => return some (spare.getD i)
    | .tombstone => probe slots key steps (after slots i) (some (spare.getD i))
    | .full e =>
      if e.key = key then return some i else probe slots key steps (after slots i) spare

def find (slots : Array (Slot α)) (key : Ref) (hash : UInt32) : Option (Option Nat) := do
  probe slots key slots.size (← home slots hash) none

/-- The slot of a key, or the one where it belongs, with what it holds. -/
def locate (slots : Array (Slot α)) (key : Ref) (hash : UInt32) : Option (Option (Nat × Slot α)) := do
  match ← find slots key hash with
  | none => return none
  | some i => return some (i, ← slots[i]?)

def get? (t : Table α) (key : Ref) (hash : UInt32) : Option (Option α) :=
  if t.slots.isEmpty then some none
  else do
    match ← locate t.slots key hash with
    | some (_, .full e) => return some e.value
    | _ => return none

def place (slots : Array (Slot α)) (e : Entry α) : Option (Array (Slot α)) := do
  match ← locate slots e.key e.hash with
  | some (i, _) => return slots.setIfInBounds i (.full e)
  | none => return slots

def reserve (t : Table α) : Option (Table α) :=
  if 3 * t.capacity < 4 * (t.taken + 1) then do
    let slots ← t.entries.foldlM place (Array.replicate (grow t.capacity) .empty)
    return ⟨slots, t.entries.length⟩
  else some t

def insert (t : Table α) (key : Ref) (hash : UInt32) (value : α) : Option (Table α × Bool) := do
  let ⟨slots, taken⟩ ← reserve t
  match ← locate slots key hash with
  | some (i, .full _) =>
    return (⟨slots.setIfInBounds i (.full ⟨key, hash, value⟩), taken⟩, false)
  | some (i, .tombstone) =>
    return (⟨slots.setIfInBounds i (.full ⟨key, hash, value⟩), taken⟩, true)
  | some (i, .empty) =>
    return (⟨slots.setIfInBounds i (.full ⟨key, hash, value⟩), taken + 1⟩, true)
  | none => return (⟨slots, taken⟩, false)

def erase (t : Table α) (key : Ref) (hash : UInt32) : Option (Table α × Bool) :=
  if t.slots.isEmpty then some (t, false)
  else do
    match ← locate t.slots key hash with
    | some (i, .full _) => return ({ t with slots := t.slots.setIfInBounds i .tombstone }, true)
    | _ => return (t, false)

def collect (slots : Array (Slot α)) (hash : UInt32) : Nat → Nat → Option (List Ref)
  | 0, _ => some []
  | steps + 1, i => do
    match ← slots[i]? with
    | .empty => return []
    | .tombstone => collect slots hash steps (after slots i)
    | .full e =>
      if e.hash = hash then return e.key :: (← collect slots hash steps (after slots i))
      else collect slots hash steps (after slots i)

def findKey? (t : Table α) (hash : UInt32) (p : Ref → Bool) : Option (Option Ref) :=
  if t.slots.isEmpty then some none
  else do
    let keys ← collect t.slots hash t.slots.size (← home t.slots hash)
    return keys.find? p

theorem home_eq (h : 0 < slots.size) : home slots hash = some (Table.home slots hash) :=
  if_pos h

theorem probe_eq (h : 0 < slots.size) (steps : Nat) : ∀ {i : Nat} (spare : Option Nat),
    i < slots.size → probe slots key steps i spare = some (Table.probe slots key steps i spare) := by
  induction steps with
  | zero => exact fun _ _ => rfl
  | succ steps ih =>
    intro i spare inside
    rw [probe, Table.probe, Array.getElem?_eq_getElem inside]
    simp only [Option.bind_eq_bind, Option.bind_some]
    cases slots[i] with
    | empty => rfl
    | tombstone => exact ih _ (after_lt h)
    | full e =>
      dsimp only
      split
      · rfl
      · exact ih _ (after_lt h)

theorem find_eq (h : 0 < slots.size) : find slots key hash = some (Table.find slots key hash) := by
  rw [find, home_eq h]
  exact probe_eq h _ none (home_lt h)

/-- A search that finds a slot finds one of the table. -/
theorem locate_cases (h : 0 < slots.size) (key : Ref) (hash : UInt32) :
    (locate slots key hash = some none ∧ Table.find slots key hash = none) ∨
      ∃ i s, locate slots key hash = some (some (i, s)) ∧ Table.find slots key hash = some i ∧
        slots[i]? = some s := by
  unfold locate
  rw [find_eq h]
  cases found : Table.find slots key hash with
  | none => exact .inl ⟨rfl, rfl⟩
  | some i =>
    have there := Array.getElem?_eq_getElem (find_lt found)
    refine .inr ⟨i, _, ?_, rfl, there⟩
    simp only [Option.bind_eq_bind, Option.bind_some, there]
    rfl

theorem place_eq (h : 0 < slots.size) (e : Entry α) :
    place slots e = some (Table.place slots e) := by
  unfold place Table.place
  obtain ⟨located, found⟩ | ⟨i, s, located, found, -⟩ := locate_cases h e.key e.hash <;>
    rw [located, found] <;> rfl

theorem foldlM_place_eq (es : List (Entry α)) : ∀ {slots : Array (Slot α)}, 0 < slots.size →
    es.foldlM place slots = some (es.foldl Table.place slots) := by
  induction es with
  | nil => exact fun _ => rfl
  | cons e es ih =>
    intro slots h
    rw [List.foldlM_cons, place_eq h]
    exact ih (by rwa [size_place])

theorem collect_eq (h : 0 < slots.size) (steps : Nat) : ∀ {i : Nat}, i < slots.size →
    collect slots hash steps i = some (Table.collect slots hash steps i) := by
  induction steps with
  | zero => exact fun _ => rfl
  | succ steps ih =>
    intro i inside
    have behind := ih (after_lt h (i := i))
    rw [collect, Table.collect, Array.getElem?_eq_getElem inside]
    simp only [Option.bind_eq_bind, Option.bind_some]
    cases slots[i] with
    | empty => rfl
    | tombstone => exact behind
    | full e =>
      dsimp only
      split
      · rw [behind]
        rfl
      · exact behind

/-- A larger table has slots. -/
theorem size_grown_pos (capacity : Nat) :
    0 < (Array.replicate (grow capacity) (.empty : Slot α)).size := by
  rw [Array.size_replicate, grow]
  split <;> omega

variable (t : Table α)

theorem reserve_eq : reserve t = some t.reserve := by
  unfold reserve Table.reserve
  split
  · rw [foldlM_place_eq _ (size_grown_pos _)]
    rfl
  · rfl

/-- A table with room for one more key has slots. -/
theorem size_reserve_pos : 0 < t.reserve.slots.size := by
  unfold Table.reserve
  split
  · have same := (used_foldl_place_le (Array.replicate (grow t.capacity) .empty) t.entries).2
    exact Nat.lt_of_lt_of_eq (size_grown_pos _) same.symm
  next enough =>
    have : t.capacity = t.slots.size := rfl
    omega

variable (key : Ref) (hash : UInt32)

theorem get?_eq : get? t key hash = some (t.get? key hash) := by
  unfold get? Table.get?
  split
  next none => rw [find_of_isEmpty none]
  next some =>
    have size : 0 < t.slots.size := Array.size_pos_iff.2 (by simpa using some)
    obtain ⟨located, found⟩ | ⟨i, s, located, found, hs⟩ := locate_cases size key hash
    · rw [located, found]
      rfl
    · rw [located, found]
      cases s <;> simp [hs]

theorem insert_eq (v : α) : insert t key hash v = some (t.insert key hash v) := by
  have size := size_reserve_pos t
  unfold insert Table.insert
  rw [reserve_eq]
  generalize t.reserve = t' at size
  obtain ⟨located, found⟩ | ⟨i, s, located, found, hs⟩ := locate_cases size key hash
  · simp [located, found]
  · cases s <;> simp [located, found, hs]

theorem erase_eq : erase t key hash = some (t.erase key hash) := by
  unfold erase Table.erase
  split
  next none => rw [find_of_isEmpty none]
  next some =>
    have size : 0 < t.slots.size := Array.size_pos_iff.2 (by simpa using some)
    obtain ⟨located, found⟩ | ⟨i, s, located, found, hs⟩ := locate_cases size key hash
    · rw [located, found]
      rfl
    · rw [located, found]
      cases s <;> simp [hs]

theorem findKey?_eq (p : Ref → Bool) : findKey? t hash p = some (t.findKey? hash p) := by
  unfold findKey? Table.findKey? candidates
  split
  next none =>
    rw [Array.isEmpty_iff_size_eq_zero.1 none, Table.collect]
    rfl
  next some =>
    have size : 0 < t.slots.size := Array.size_pos_iff.2 (by simpa using some)
    rw [home_eq size]
    simp only [Option.bind_eq_bind, Option.bind_some]
    rw [collect_eq size _ (home_lt size)]
    rfl

end Guarded
end Table

namespace Heap

open Table

/-- The string with a given text, which is looked for and entered in the table of strings. -/
def guardedIntern (h : Heap) (text : String) : Option (Heap × Ref) := do
  match ← Guarded.findKey? h.strings (Text.hash text) fun r => h.string? r == some text with
  | some r => return (h, r)
  | none =>
    let (h, r) := h.allocate (.string text)
    let (strings, _) ← Guarded.insert h.strings r (Text.hash text) ()
    return ({ h with strings }, r)

theorem guardedIntern_eq (h : Heap) (text : String) :
    h.guardedIntern text = some (h.intern text) := by
  unfold guardedIntern intern findString?
  rw [Guarded.findKey?_eq]
  cases h.strings.findKey? (Text.hash text) fun r => h.string? r == some text with
  | some r => rfl
  | none => simp only [Option.bind_eq_bind, Option.bind_some, Guarded.insert_eq, Option.pure_def]

end Heap
end StackScript
