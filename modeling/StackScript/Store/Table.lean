import StackScript.Store.Value

/-!
# StackScript.Store.Table

A hash table with open addressing. Keys are handles and are compared as such; each operation is
given the key's hash beside the key.

* A key lives in the first slot of its probe sequence that was free when it came: slot `hash`
  modulo the capacity, then the next, around the end.
* Removing a key leaves a tombstone, so that the keys behind it stay reachable. Tombstones are
  reused by new keys and vanish when the table grows.
* The table grows before more than three quarters of its slots are taken, tombstones included,
  so a probe always meets an empty slot.
-/

namespace StackScript

structure Entry (α : Type) where
  key : Ref
  hash : UInt32
  value : α

inductive Slot (α : Type) where
  | empty
  | tombstone
  | full (entry : Entry α)

namespace Slot

def entry? {α : Type} : Slot α → Option (Entry α)
  | .full e => some e
  | _ => none

instance {α : Type} : Inhabited (Slot α) := ⟨.empty⟩

end Slot

/-- `taken` counts the slots that are not empty. -/
structure Table (α : Type) where
  slots : Array (Slot α)
  taken : Nat

namespace Table

variable {α : Type}

def empty : Table α := ⟨#[], 0⟩

instance : Inhabited (Table α) := ⟨empty⟩

/-- Capacities go 8, 16, 32, … -/
def grow (capacity : Nat) : Nat := if capacity < 8 then 8 else capacity * 2

def capacity (t : Table α) : Nat := t.slots.size

/-- The live entries in slot order. -/
def entries (t : Table α) : List (Entry α) := t.slots.toList.filterMap Slot.entry?

def size (t : Table α) : Nat := t.entries.length

def isEmpty (t : Table α) : Bool := t.size == 0

/-- The slot where probing for a hash begins. -/
def home (slots : Array (Slot α)) (hash : UInt32) : Nat := hash.toNat % slots.size

/-- The slot after slot `i`, around the end. -/
def after (slots : Array (Slot α)) (i : Nat) : Nat := (i + 1) % slots.size

/-- Looks at `steps` slots from slot `i` on for the one that holds the key, or else for the one
where it belongs: the first tombstone met (`spare`), or the empty slot that ends the search. -/
def probe (slots : Array (Slot α)) (key : Ref) : Nat → Nat → Option Nat → Option Nat
  | 0, _, spare => spare
  | steps + 1, i, spare =>
    match slots[i]? with
    | none => spare
    | some .empty => some (spare.getD i)
    | some .tombstone => probe slots key steps (after slots i) (some (spare.getD i))
    | some (.full e) =>
      if e.key = key then some i else probe slots key steps (after slots i) spare

/-- The slot of a key, or the one where it belongs. -/
def find (slots : Array (Slot α)) (key : Ref) (hash : UInt32) : Option Nat :=
  probe slots key slots.size (home slots hash) none

def get? (t : Table α) (key : Ref) (hash : UInt32) : Option α :=
  match find t.slots key hash with
  | none => none
  | some i =>
    match t.slots[i]? with
    | some (.full e) => some e.value
    | _ => none

/-- Changes the value of a key that is present. -/
def modify (t : Table α) (key : Ref) (hash : UInt32) (f : α → α) : Table α :=
  match find t.slots key hash with
  | none => t
  | some i =>
    match t.slots[i]? with
    | some (.full e) =>
      { t with slots := t.slots.setIfInBounds i (.full { e with value := f e.value }) }
    | _ => t

/-- Puts an entry whose key is absent into slots that have room. -/
def place (slots : Array (Slot α)) (e : Entry α) : Array (Slot α) :=
  match find slots e.key e.hash with
  | none => slots
  | some i => slots.setIfInBounds i (.full e)

/-- The same entries in a new array of slots, without tombstones. -/
def resize (t : Table α) (capacity : Nat) : Table α :=
  let live := t.entries
  ⟨live.foldl place (Array.replicate capacity .empty), live.length⟩

/-- Makes room for one more key. -/
def reserve (t : Table α) : Table α :=
  if 3 * t.capacity < 4 * (t.taken + 1) then t.resize (grow t.capacity) else t

/-- Sets the value of a key; also tells whether the key is new. -/
def insert (t : Table α) (key : Ref) (hash : UInt32) (value : α) : Table α × Bool :=
  let ⟨slots, taken⟩ := t.reserve
  match find slots key hash with
  | none => (⟨slots, taken⟩, false)
  | some i =>
    match slots[i]? with
    | some (.full _) => (⟨slots.setIfInBounds i (.full ⟨key, hash, value⟩), taken⟩, false)
    | some .tombstone => (⟨slots.setIfInBounds i (.full ⟨key, hash, value⟩), taken⟩, true)
    | _ => (⟨slots.setIfInBounds i (.full ⟨key, hash, value⟩), taken + 1⟩, true)

/-- Removes a key; also tells whether it was present. -/
def erase (t : Table α) (key : Ref) (hash : UInt32) : Table α × Bool :=
  match find t.slots key hash with
  | none => (t, false)
  | some i =>
    match t.slots[i]? with
    | some (.full _) => ({ t with slots := t.slots.setIfInBounds i .tombstone }, true)
    | _ => (t, false)

/-- The keys with a given hash among `steps` slots from slot `i` on, up to an empty slot. -/
def collect (slots : Array (Slot α)) (hash : UInt32) : Nat → Nat → List Ref
  | 0, _ => []
  | steps + 1, i =>
    match slots[i]? with
    | none | some .empty => []
    | some .tombstone => collect slots hash steps (after slots i)
    | some (.full e) =>
      if e.hash = hash then e.key :: collect slots hash steps (after slots i)
      else collect slots hash steps (after slots i)

/-- The keys with a given hash, in probe order. -/
def candidates (t : Table α) (hash : UInt32) : List Ref :=
  collect t.slots hash t.slots.size (home t.slots hash)

/-- The first key with a given hash that satisfies `p`. -/
def findKey? (t : Table α) (hash : UInt32) (p : Ref → Bool) : Option Ref :=
  (t.candidates hash).find? p

end Table
end StackScript
