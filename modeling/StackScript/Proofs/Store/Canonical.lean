import Mathlib.Data.List.Nodup
import StackScript.Proofs.Store.Intern

/-!
# StackScript.Proofs.Store.Canonical

Strings are canonical: a text has one object, whatever the hashes of the texts are.

* `Heap.Built`: a heap that comes from an empty one by interning, allocating, changing and
  releasing objects, with the texts that were interned since objects were last released.
* `Heap.Canonical`: handles of strings and texts determine each other, and the table has exactly
  the texts that were interned.
* `Heap.Built.canonical`: every heap that is built is canonical.
-/

namespace StackScript

namespace Object

def isString : Object → Bool
  | .string _ => true
  | _ => false

end Object

namespace Heap

inductive Built : Heap → List String → Prop where
  | empty : Built .empty []
  | intern {h : Heap} {texts : List String} (text : String) (built : Built h texts)
      (fits : (h.intern text).1.size ≤ UInt32.size) : Built (h.intern text).1 (text :: texts)
  | clear {h : Heap} {texts : List String} (built : Built h texts) : Built h.clear []
  | allocate {h : Heap} {texts : List String} {o : Object} (other : ∀ text, o ≠ .string text)
      (built : Built h texts) (fits : (h.allocate o).1.size ≤ UInt32.size) :
    Built (h.allocate o).1 texts
  | close {h : Heap} {texts : List String} {r : Ref} {u : Upvalue} (v : Value)
      (hr : h.upvalue? r = some u) (built : Built h texts) :
    Built (h.set r (.upvalue (.closed v))) texts
  | setElement {h : Heap} {texts : List String} (r : Ref) (i : Nat) (v : Value)
      (built : Built h texts) : Built (h.setElement r i v) texts

structure Canonical (h : Heap) (texts : List String) : Prop where
  same_iff : ∀ {r r' : Ref} {text text' : String}, h.string? r = some text →
    h.string? r' = some text' → (r = r' ↔ text = text')
  equal_iff : ∀ {r r' : Ref} {text text' : String}, h.string? r = some text →
    h.string? r' = some text' → ((Value.object r == Value.object r') = true ↔ text = text')
  intern_known : ∀ {r : Ref} {text : String}, h.string? r = some text → h.intern text = (h, r)
  find_iff : ∀ {r : Ref} {text : String}, h.findString? text = some r ↔ h.string? r = some text
  found_iff : ∀ text, (h.findString? text).isSome ↔ text ∈ texts
  interned_eq : h.interned = h.objects.countP Object.isString

section Count

/-- Counting the elements of a list by their positions. -/
theorem countP_range {α : Type} (p : α → Bool) (xs : List α) :
    (List.range xs.length).countP (fun i => xs[i]?.any p) = xs.countP p := by
  induction xs with
  | nil => rfl
  | cons x xs ih =>
    rw [List.length_cons, List.range_succ_eq_map, List.countP_cons, List.countP_map,
      List.countP_cons, ← ih]
    rfl

variable {h : Heap}

/-- The handles of the strings on a heap. -/
def stringRefs (h : Heap) : List Ref :=
  ((List.range h.size).map Ref.ofIndex).filter fun r => (h.string? r).isSome

theorem mem_stringRefs {r : Ref} : r ∈ h.stringRefs ↔ ∃ text, h.string? r = some text := by
  rw [stringRefs, List.mem_filter, List.mem_map, Option.isSome_iff_exists]
  refine and_iff_right_of_imp ?_
  rintro ⟨text, ht⟩
  obtain ⟨inside, -⟩ := Array.getElem?_eq_some_iff.1 (string?_eq_some.1 ht)
  refine ⟨r.index, List.mem_range.2 inside, Ref.index_inj (index_ofIndex ?_)⟩
  exact r.id.toNat_lt

theorem nodup_stringRefs (fits : h.size ≤ UInt32.size) : h.stringRefs.Nodup := by
  refine List.Nodup.filter _ (List.Nodup.map_on ?_ List.nodup_range)
  intro i hi j hj same
  have small {k : Nat} (hk : k ∈ List.range h.size) : k < UInt32.size :=
    Nat.lt_of_lt_of_le (List.mem_range.1 hk) fits
  rw [← index_ofIndex (small hi), same, index_ofIndex (small hj)]

theorem length_stringRefs (fits : h.size ≤ UInt32.size) :
    h.stringRefs.length = h.objects.countP Object.isString := by
  rw [stringRefs, ← List.countP_eq_length_filter, List.countP_map, ← Array.countP_toList,
    ← countP_range Object.isString, Array.length_toList]
  refine List.countP_congr fun i hi => ?_
  have small : i < UInt32.size := Nat.lt_of_lt_of_le (List.mem_range.1 hi) fits
  rw [Function.comp_apply, string?, get?, index_ofIndex small, Array.getElem?_toList]
  cases h.objects[i]? with
  | none => rfl
  | some o => cases o <;> rfl

end Count

section Change

variable {h : Heap} {r r' : Ref}

theorem string?_set {u u' : Upvalue} (hr : h.upvalue? r = some u) :
    (h.set r (.upvalue u')).string? r' = h.string? r' := by
  rw [string?, get?_set_upvalue hr]
  by_cases e : r = r'
  · subst e
    rw [if_pos rfl, string?, upvalue?_eq_some.1 hr]
  · rw [if_neg e]
    rfl

theorem string?_setElement {i : Nat} {v : Value} :
    (h.setElement r i v).string? r' = h.string? r' := by
  refine Option.ext fun text => ⟨fun ht => ?_, (h.kept_setElement r i v).string?⟩
  obtain old | ⟨_, _, e, -⟩ := get?_setElement (string?_eq_some.1 ht)
  · exact string?_eq_some.2 old
  · cases e

theorem string?_allocate {o : Object} (other : ∀ text, o ≠ .string text) {text : String} :
    (h.allocate o).1.string? r = some text ↔ h.string? r = some text := by
  refine ⟨fun hr => ?_, (h.extends_allocate o).string?⟩
  obtain old | ⟨e, -⟩ := get?_allocate_cases (string?_eq_some.1 hr)
  · exact string?_eq_some.2 old
  · exact absurd e.symm (other text)

theorem exists_string?_intern {text text' : String}
    (fits : (h.intern text).1.size ≤ UInt32.size) :
    (∃ r, (h.intern text).1.string? r = some text') ↔
      text' = text ∨ ∃ r, h.string? r = some text' := by
  constructor
  · rintro ⟨r, hr⟩
    obtain old | e := get?_intern_cases (string?_eq_some.1 hr)
    · exact .inr ⟨r, string?_eq_some.2 old⟩
    · cases e
      exact .inl rfl
  · rintro (rfl | ⟨r, hr⟩)
    · exact ⟨_, h.string?_intern _ fits⟩
    · exact ⟨r, (h.extends_intern text).string? hr⟩

theorem string?_empty (r : Ref) : empty.string? r = none := rfl

theorem string?_clear (h : Heap) (r : Ref) : h.clear.string? r = none := by
  unfold clear
  split
  next none =>
    have none : h.objects = #[] := by simpa using none
    rw [string?, get?, none]
    rfl
  next => exact string?_empty r

end Change

namespace Sound

variable {h h' : Heap}

/-- A change that leaves the strings alone. -/
theorem congr (hs : h.Sound) (table : h'.strings = h.strings)
    (strings : ∀ r, h'.string? r = h.string? r) : h'.Sound where
  table := table ▸ hs.table
  keys e he := by
    rw [strings]
    exact hs.keys e (table ▸ he)
  listed hr := by
    rw [table]
    exact hs.listed (strings _ ▸ hr)
  once hr hr' := hs.once (strings _ ▸ hr) (strings _ ▸ hr')

theorem clear (hs : h.Sound) : h.clear.Sound := by
  unfold Heap.clear
  split
  · exact hs
  · exact sound_empty

theorem intern_known (hs : h.Sound) {r : Ref} {text : String} (hr : h.string? r = some text) :
    h.intern text = (h, r) := by
  rw [Heap.intern, hs.findString?_eq_some.2 hr]

/-- The table has as many entries as the heap has strings. -/
theorem interned_eq (hs : h.Sound) (fits : h.size ≤ UInt32.size) :
    h.interned = h.objects.countP Object.isString := by
  have keys : (h.strings.entries.map Entry.key).Perm h.stringRefs := by
    refine (List.perm_ext_iff_of_nodup hs.table.ordered.nodup_keys (nodup_stringRefs fits)).2 ?_
    intro r
    rw [mem_stringRefs, List.mem_map]
    constructor
    · rintro ⟨e, he, rfl⟩
      obtain ⟨text, ht, -⟩ := hs.keys e he
      exact ⟨text, ht⟩
    · rintro ⟨text, ht⟩
      exact hs.listed ht
  rw [← length_stringRefs fits, ← keys.length_eq, List.length_map]
  rfl

end Sound

namespace Built

variable {h : Heap} {texts : List String}

theorem sound (b : Built h texts) : h.Sound := by
  induction b with
  | empty => exact sound_empty
  | intern text _ fits ih => exact ih.intern fits
  | clear _ ih => exact ih.clear
  | allocate other _ _ ih => exact ih.allocate other
  | close v hr _ ih => exact ih.congr rfl fun r => string?_set hr
  | setElement r i v _ ih => exact ih.congr rfl fun r => string?_setElement

theorem size_le (b : Built h texts) : h.size ≤ UInt32.size := by
  induction b with
  | empty => exact Nat.zero_le _
  | intern _ _ fits => exact fits
  | clear _ ih =>
    unfold Heap.clear
    split
    · exact ih
    · exact Nat.zero_le _
  | allocate _ _ fits => exact fits
  | close v _ _ ih => exact (size_set ..).symm ▸ ih
  | setElement r i v _ ih => exact (size_setElement ..).symm ▸ ih

/-- The texts on a heap are those that were interned since objects were last released. -/
theorem exists_string?_iff (b : Built h texts) (text : String) :
    (∃ r, h.string? r = some text) ↔ text ∈ texts := by
  induction b with
  | empty => simp [string?_empty]
  | intern _ _ fits ih => rw [exists_string?_intern fits, ih, List.mem_cons]
  | clear _ _ => simp [string?_clear]
  | allocate other _ _ ih => simpa only [string?_allocate other] using ih
  | close v hr _ ih => simpa only [string?_set hr] using ih
  | setElement r i v _ ih => simpa only [string?_setElement] using ih

theorem canonical (b : Built h texts) : h.Canonical texts := by
  have hs := b.sound
  have same {r r' : Ref} {text text' : String} (hr : h.string? r = some text)
      (hr' : h.string? r' = some text') : r = r' ↔ text = text' := by
    constructor
    · rintro rfl
      exact Option.some.inj (hr.symm.trans hr')
    · rintro rfl
      exact hs.once hr hr'
  refine ⟨same, fun hr hr' => ?_, hs.intern_known, hs.findString?_eq_some, fun text => ?_,
    hs.interned_eq b.size_le⟩
  · exact Iff.trans (beq_iff_eq (α := Ref)) (same hr hr')
  · rw [← b.exists_string?_iff, Option.isSome_iff_exists]
    exact exists_congr fun r => hs.findString?_eq_some

/-- What instructions do to a heap builds it further. -/
theorem onward {h' : Heap} (b : Built h texts) (o : h.Onward h')
    (fits : h'.size ≤ UInt32.size) : ∃ more, Built h' (more ++ texts) := by
  induction o with
  | refl => exact ⟨[], b⟩
  | allocate _ string _ ih =>
    obtain ⟨more, b⟩ := ih (Nat.le_trans (extends_allocate _ _).size_le fits)
    exact ⟨more, .allocate string b fits⟩
  | intern text _ ih =>
    obtain ⟨more, b⟩ := ih (Nat.le_trans (extends_intern _ _).size_le fits)
    exact ⟨text :: more, .intern text b fits⟩
  | close v hr _ ih =>
    obtain ⟨more, b⟩ := ih (size_set .. ▸ fits)
    exact ⟨more, .close v hr b⟩
  | setElement r i v _ ih =>
    obtain ⟨more, b⟩ := ih (size_setElement .. ▸ fits)
    exact ⟨more, .setElement r i v b⟩

end Built
end Heap
end StackScript
