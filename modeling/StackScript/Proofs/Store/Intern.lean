import StackScript.Proofs.Store.Kept
import StackScript.Proofs.Store.Table

/-!
# StackScript.Proofs.Store.Intern

Every text is on the heap once.

* `Heap.Sound`: the table of strings has the strings of the heap, which differ in their texts.
* `findString?_eq_some`: the string that is found is the one with the text.
* `Gains.sound`: compiling a source keeps this.
-/

namespace StackScript
namespace Heap

structure Sound (h : Heap) : Prop where
  table : h.strings.Sound
  keys : ∀ e ∈ h.strings.entries, ∃ text, h.string? e.key = some text ∧ e.hash = Text.hash text
  listed : ∀ {r : Ref} {text : String}, h.string? r = some text →
    ∃ e ∈ h.strings.entries, e.key = r
  once : ∀ {r r' : Ref} {text : String}, h.string? r = some text → h.string? r' = some text → r = r'

theorem sound_empty : Sound empty where
  table := Table.sound_empty
  keys := fun e he => by cases he
  listed := fun h => by simp [string?, get?, empty] at h
  once := fun h => by simp [string?, get?, empty] at h

theorem string?_of_findString? {h : Heap} {r : Ref} {text : String}
    (hr : h.findString? text = some r) : h.string? r = some text := by
  simpa using List.find?_some hr

theorem intern_of_absent {h : Heap} {text : String} (hn : h.findString? text = none) :
    h.intern text =
      ({ h with
          objects := h.objects.push (.string text)
          strings := (h.strings.insert (Ref.ofIndex h.size) (Text.hash text) ()).1 },
        Ref.ofIndex h.size) := by
  rw [intern, hn]
  rfl

namespace Sound

variable {h : Heap}

theorem findString?_eq_some (hs : h.Sound) {r : Ref} {text : String} :
    h.findString? text = some r ↔ h.string? r = some text := by
  refine ⟨string?_of_findString?, fun hr => ?_⟩
  obtain ⟨e, he, rfl⟩ := hs.listed hr
  obtain ⟨text', ht, hash⟩ := hs.keys e he
  obtain rfl := Option.some.inj (hr.symm.trans ht)
  have candidate : e.key ∈ h.strings.candidates (Text.hash text) :=
    hs.table.mem_candidates.2 ⟨e, he, rfl, hash⟩
  cases hf : h.findString? text with
  | none => exact absurd hr (by simpa using List.find?_eq_none.1 hf e.key candidate)
  | some r' => rw [hs.once (string?_of_findString? hf) hr]

/-- A new object that is no string. -/
theorem allocate (hs : h.Sound) {o : Object} (ho : ∀ text, o ≠ .string text) :
    (h.allocate o).1.Sound := by
  have strings {r : Ref} {text : String} :
      (h.allocate o).1.string? r = some text ↔ h.string? r = some text := by
    refine ⟨fun hr => ?_, (h.extends_allocate o).string?⟩
    obtain old | ⟨e, -⟩ := get?_allocate_cases (string?_eq_some.1 hr)
    · exact string?_eq_some.2 old
    · exact absurd e.symm (ho text)
  refine ⟨hs.table, fun e he => ?_, fun hr => hs.listed (strings.1 hr),
    fun hr hr' => hs.once (strings.1 hr) (strings.1 hr')⟩
  obtain ⟨text, ht, hash⟩ := hs.keys e he
  exact ⟨text, strings.2 ht, hash⟩

theorem intern (hs : h.Sound) {text : String} (fits : (h.intern text).1.size ≤ UInt32.size) :
    (h.intern text).1.Sound := by
  cases absent : h.findString? text with
  | some r =>
    rw [Heap.intern, absent]
    exact hs
  | none =>
    rw [intern_of_absent absent] at fits ⊢
    have room : h.size < UInt32.size := by
      have size := h.size_allocate (.string text)
      have fits : (h.allocate (.string text)).1.size ≤ UInt32.size := fits
      omega
    generalize hr : Ref.ofIndex h.size = r
    have index : r.index = h.size := hr ▸ index_ofIndex room
    have fresh : h.get? r = none := hr ▸ get?_allocate_none (o := .string text) room
    have unlisted : ∀ e ∈ h.strings.entries, e.key ≠ r := by
      rintro e he rfl
      obtain ⟨text', ht, -⟩ := hs.keys e he
      rw [string?_eq_some, fresh] at ht
      cases ht
    have new : (h.allocate (.string text)).1.string? r = some text := by
      rw [string?_eq_some, ← hr]
      exact get?_allocate room
    have old {r' : Ref} {text' : String} :
        (h.allocate (.string text)).1.string? r' = some text' →
          h.string? r' = some text' ∨ (r' = r ∧ text' = text) := by
      intro h'
      obtain old | ⟨e, at_end⟩ := get?_allocate_cases (string?_eq_some.1 h')
      · exact .inl (string?_eq_some.2 old)
      · cases e
        exact .inr ⟨Ref.index_inj (at_end.trans index.symm), rfl⟩
    obtain ⟨table, entries⟩ := hs.table.insert r (Text.hash text) ()
      fun e he same => absurd same (unlisted e he)
    refine ⟨table, fun e he => ?_, fun {r'} {text'} h' => ?_, fun {r'} {r''} {text'} h' h'' => ?_⟩
    · obtain rfl | ⟨he, -⟩ := (entries e).1 he
      · exact ⟨text, new, rfl⟩
      · obtain ⟨text', ht, hash⟩ := hs.keys e he
        exact ⟨text', (h.extends_allocate _).string? ht, hash⟩
    · obtain h' | ⟨rfl, -⟩ := old h'
      · obtain ⟨e, he, rfl⟩ := hs.listed h'
        exact ⟨e, (entries e).2 (.inr ⟨he, unlisted e he⟩), rfl⟩
      · exact ⟨_, (entries _).2 (.inl rfl), rfl⟩
    · have known {r' : Ref} (hr' : h.string? r' = some text) : False := by
        rw [hs.findString?_eq_some.2 hr'] at absent
        cases absent
      obtain o | ⟨e, t⟩ := old h' <;> obtain o' | ⟨e', t'⟩ := old h''
      · exact hs.once o o'
      · exact (known (t' ▸ o)).elim
      · exact (known (t ▸ o')).elim
      · exact e.trans e'.symm

end Sound

theorem Gains.sound {h h' : Heap} (g : h.Gains h') (hs : h.Sound) (fits : h'.size ≤ UInt32.size) :
    h'.Sound := by
  induction g with
  | refl => exact hs
  | string text _ ih => exact (ih (Nat.le_trans (extends_intern _ text).size_le fits)).intern fits
  | function f _ ih =>
    exact (ih (Nat.le_trans (extends_allocate _ _).size_le fits)).allocate nofun

end Heap
end StackScript
