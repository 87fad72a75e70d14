import StackScript.Proofs.Store.Canonical
import StackScript.Proofs.Store.Dictionary

/-!
# StackScript.Proofs.Store.Directory

Tables with strings as keys are maps from texts, since every text is on the heap once.

* `Heap.Lasts`: a heap later on, with the same strings and perhaps more.
* `Directory`: the table has the entries of a map from texts.
* `Directory.lasts`: it still has them on a later heap.
* `Directory.insert`, `Directory.withdraw`: an entry is added; a new one is taken back.
-/

namespace StackScript

namespace Heap

/-- The strings of a heap are on another one, which has every text once if the first one has. -/
structure Lasts (h h' : Heap) : Prop where
  size : h.size ≤ h'.size
  string : ∀ r text, h.string? r = some text → h'.string? r = some text
  sound : h.Sound → h'.size ≤ UInt32.size → h'.Sound

namespace Lasts

variable {h h₁ h' : Heap}

theorem refl (h : Heap) : h.Lasts h := ⟨Nat.le_refl _, fun _ _ => id, fun s _ => s⟩

theorem trans (l : h.Lasts h₁) (l' : h₁.Lasts h') : h.Lasts h' where
  size := Nat.le_trans l.size l'.size
  string r text hr := l'.string r text (l.string r text hr)
  sound s fits := l'.sound (l.sound s (Nat.le_trans l'.size fits)) fits

theorem allocate (h : Heap) {o : Object} (other : ∀ text, o ≠ .string text) :
    h.Lasts (h.allocate o).1 where
  size := (extends_allocate h o).size_le
  string _ _ := (extends_allocate h o).string?
  sound s _ := s.allocate other

theorem intern (h : Heap) (text : String) : h.Lasts (h.intern text).1 where
  size := (extends_intern h text).size_le
  string _ _ := (extends_intern h text).string?
  sound s fits := s.intern fits

theorem set {r : Ref} {u : Upvalue} (hr : h.upvalue? r = some u) (u' : Upvalue) :
    h.Lasts (h.set r (.upvalue u')) where
  size := Nat.le_of_eq (size_set ..).symm
  string r' text hr' := by rwa [string?_set hr]
  sound s _ := s.congr rfl fun _ => string?_set hr

theorem setElement (h : Heap) (r : Ref) (i : Nat) (v : Value) : h.Lasts (h.setElement r i v) where
  size := Nat.le_of_eq (size_setElement ..).symm
  string r' text hr' := by rwa [string?_setElement]
  sound s _ := s.congr rfl fun _ => string?_setElement

end Lasts

theorem Gains.lasts {h h' : Heap} (g : h.Gains h') : h.Lasts h' where
  size := g.extends.size_le
  string _ _ := g.extends.string?
  sound s fits := g.sound s fits

/-- The hash that a key comes with: that of its text. -/
def keyHash (h : Heap) (key : Ref) : UInt32 := (h.string? key).elim 0 Text.hash

theorem keyHash_eq {h : Heap} {key : Ref} {name : String} (hk : h.string? key = some name) :
    h.keyHash key = Text.hash name := by
  rw [keyHash, hk]
  rfl

end Heap

/-- A finite map from texts. -/
abbrev Lexicon (α : Type) : Type := Finmap fun _ : String => α

variable {α : Type}

/-- Only the hashes of keys that are present matter. -/
theorem Table.Represents.congr {hashOf hashOf' : Ref → UInt32} {t : Table α} {d : Dictionary α}
    (r : t.Represents hashOf d) (same : ∀ key ∈ d, hashOf' key = hashOf key) :
    t.Represents hashOf' d where
  sound := r.sound
  entries e := by
    rw [r.entries]
    refine and_congr_left fun live => ?_
    rw [same e.key (Finmap.mem_of_lookup_eq_some live)]

/-- The entries of a table as they are met one after the other, each key with its text. -/
def Table.named (h : Heap) (t : Table α) : List (Option String × α) :=
  t.entries.map fun e => (h.string? e.key, e.value)

/-- The keys of a table are strings of a heap, and their texts are the names of a map. -/
structure Directory (h : Heap) (t : Table α) (d : Dictionary α) (g : Lexicon α) : Prop where
  table : t.Represents h.keyHash d
  strings : ∀ key ∈ d, ∃ name, h.string? key = some name
  lookup : ∀ key name, h.string? key = some name → d.lookup key = g.lookup name
  present : ∀ name ∈ g, ∃ key, h.string? key = some name

namespace Directory

variable {h h' : Heap} {t : Table α} {d : Dictionary α} {g : Lexicon α} {key : Ref} {name : String}

theorem empty (h : Heap) : Directory h (Table.empty : Table α) ∅ ∅ where
  table := Table.represents_empty
  strings key hk := (Finmap.notMem_empty hk).elim
  lookup key name _ := by rw [Finmap.lookup_empty, Finmap.lookup_empty]
  present name hn := (Finmap.notMem_empty hn).elim

/-- The entries are the same on a heap with more strings. -/
theorem onward (f : Directory h t d g)
    (strings : ∀ r text, h.string? r = some text → h'.string? r = some text) (s : h'.Sound) :
    Directory h' t d g where
  table := f.table.congr fun key hk => by
    obtain ⟨name, hn⟩ := f.strings key hk
    rw [Heap.keyHash_eq hn, Heap.keyHash_eq (strings key name hn)]
  strings key hk := by
    obtain ⟨name, hn⟩ := f.strings key hk
    exact ⟨name, strings key name hn⟩
  lookup key name hk := by
    by_cases hd : key ∈ d
    · obtain ⟨name', hn⟩ := f.strings key hd
      obtain rfl := Option.some.inj (hk.symm.trans (strings key name' hn))
      exact f.lookup key name hn
    by_cases hg : name ∈ g
    · obtain ⟨key', hn⟩ := f.present name hg
      obtain rfl := s.once hk (strings key' name hn)
      exact f.lookup key name hn
    · rw [Finmap.lookup_eq_none.2 hd, Finmap.lookup_eq_none.2 hg]
  present name hn := by
    obtain ⟨key, hk⟩ := f.present name hn
    exact ⟨key, strings key name hk⟩

theorem lasts (f : Directory h t d g) (l : h.Lasts h') (s : h'.Sound) : Directory h' t d g :=
  f.onward l.string s

theorem mem_iff (f : Directory h t d g) (hk : h.string? key = some name) : key ∈ d ↔ name ∈ g := by
  rw [Finmap.mem_iff, Finmap.mem_iff, f.lookup key name hk]

theorem get?_eq (f : Directory h t d g) (hk : h.string? key = some name) :
    t.get? key (Text.hash name) = g.lookup name := by
  rw [← Heap.keyHash_eq hk, f.table.get?_eq, f.lookup key name hk]

theorem insert (f : Directory h t d g) (s : h.Sound) (hk : h.string? key = some name) (v : α) :
    Directory h (t.insert key (Text.hash name) v).1 (d.insert key v) (g.insert name v) where
  table := by
    rw [← Heap.keyHash_eq hk]
    exact f.table.insert key v
  strings key' hk' := by
    obtain rfl | hk' := Finmap.mem_insert.1 hk'
    · exact ⟨name, hk⟩
    · exact f.strings key' hk'
  lookup key' name' hk' := by
    by_cases e : key' = key
    · subst e
      obtain rfl := Option.some.inj (hk.symm.trans hk')
      rw [Finmap.lookup_insert, Finmap.lookup_insert]
    · have other : name' ≠ name := by
        rintro rfl
        exact e (s.once hk' hk)
      rw [Finmap.lookup_insert_of_ne _ e, Finmap.lookup_insert_of_ne _ other,
        f.lookup key' name' hk']
  present name' hn := by
    obtain rfl | hn := Finmap.mem_insert.1 hn
    · exact ⟨key, hk⟩
    · exact f.present name' hn

theorem insert_new (f : Directory h t d g) (hk : h.string? key = some name) (v : α) :
    (t.insert key (Text.hash name) v).2 = decide (name ∉ g) := by
  rw [← Heap.keyHash_eq hk, f.table.insert_new]
  exact decide_eq_decide.2 (not_congr (Finmap.mem_keys.trans (f.mem_iff hk)))

/-- A name that was new is gone once it is taken back, and the others are as they were. -/
theorem withdraw (f : Directory h t d g) (hk : h.string? key = some name) (v : α)
    (absent : name ∉ g) :
    Directory h ((t.insert key (Text.hash name) v).1.erase key (Text.hash name)).1
      ((d.insert key v).erase key) g where
  table := by
    rw [← Heap.keyHash_eq hk]
    exact ((f.table.insert key v).erase key).2
  strings key' hk' := by
    obtain ⟨ne, hk'⟩ := Finmap.mem_erase.1 hk'
    obtain rfl | hk' := Finmap.mem_insert.1 hk'
    · exact (ne rfl).elim
    · exact f.strings key' hk'
  lookup key' name' hk' := by
    by_cases e : key' = key
    · subst e
      obtain rfl := Option.some.inj (hk.symm.trans hk')
      rw [Finmap.lookup_erase, Finmap.lookup_eq_none.2 absent]
    · rw [Finmap.lookup_erase_ne e, Finmap.lookup_insert_of_ne _ e, f.lookup key' name' hk']
  present := f.present

/-- Every name is met once, with its value. -/
theorem named (f : Directory h t d g) (s : h.Sound) : ((t.named h).map Prod.fst).Nodup ∧
    ∀ n v, (n, v) ∈ t.named h ↔ ∃ name, n = some name ∧ g.lookup name = some v := by
  have live {e : Entry α} (he : e ∈ t.entries) :
      ∃ name, h.string? e.key = some name ∧ g.lookup name = some e.value := by
    have hv := ((f.table.entries e).1 he).2
    obtain ⟨name, hn⟩ := f.strings e.key (Finmap.mem_of_lookup_eq_some hv)
    exact ⟨name, hn, (f.lookup e.key name hn).symm.trans hv⟩
  have texts : (t.named h).map Prod.fst = (t.entries.map Entry.key).map h.string? := by
    rw [Table.named, List.map_map, List.map_map]
    rfl
  refine ⟨?_, fun n v => ?_⟩
  · rw [texts]
    refine f.table.sound.ordered.nodup_keys.map_on fun k hk k' hk' same => ?_
    obtain ⟨e, he, rfl⟩ := List.mem_map.1 hk
    obtain ⟨name, hn, -⟩ := live he
    exact s.once hn (same.symm.trans hn)
  · rw [Table.named, List.mem_map]
    constructor
    · rintro ⟨e, he, same⟩
      cases same
      exact live he
    · rintro ⟨name, rfl, hv⟩
      obtain ⟨key, hk⟩ := f.present name (Finmap.mem_of_lookup_eq_some hv)
      have hd := (f.lookup key name hk).trans hv
      exact ⟨_, f.table.lookup_eq_some.1 hd, by rw [hk]⟩

end Directory
end StackScript
