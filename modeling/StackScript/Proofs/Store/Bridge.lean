import StackScript.Proofs.Numeral.Literal
import StackScript.Proofs.Store.Canonical

/-!
# StackScript.Proofs.Store.Bridge

Two heaps on which the same things have different handles.

* `Bridge`: a near and a far heap, and which objects other than strings belong together.
* `Bridge.Refs`, `Bridge.Values`, `Bridge.Names`: handles, values and names that stand for the same.
  Strings stand for the same if they have the same text.
* `Bridge.Below`: a bridge later on, when both heaps have gone on.
* `Bridge.Faithful`: a bridge across which comparing values gives the same.
-/

namespace StackScript

structure Bridge where
  pairs : Ref → Ref → Prop
  near : Heap
  far : Heap

namespace Bridge

/-- What belongs together still does, and both heaps have gone on. -/
structure Below (b b' : Bridge) : Prop where
  pairs : ∀ ⦃r q⦄, b.pairs r q → b'.pairs r q
  near : b.near.Kept b'.near
  far : b.far.Kept b'.far

inductive Refs (b : Bridge) : Ref → Ref → Prop where
  | paired {r q : Ref} : b.pairs r q → Refs b r q
  | string {r q : Ref} {text : String} : b.near.string? r = some text →
      b.far.string? q = some text → Refs b r q

inductive Values (b : Bridge) : Value → Value → Prop where
  | nil : Values b .nil .nil
  | bool (x : Bool) : Values b (.bool x) (.bool x)
  | number (x : Float) : Values b (.number x) (.number x)
  | object {r q : Ref} : b.Refs r q → Values b (.object r) (.object q)

/-- The names of functions; the script has none. -/
inductive Names (b : Bridge) : Option Ref → Option Ref → Prop where
  | none : Names b none none
  | some {r q : Ref} {text : String} : b.near.string? r = some text →
      b.far.string? q = some text → Names b (some r) (some q)

/-- Constants that stand for the same, told by their indexes. -/
def Constants (b : Bridge) (pool pool' : Array Value) (k k' : UInt8) : Prop :=
  ∃ v w, pool[k.toNat]? = some v ∧ pool'[k'.toNat]? = some w ∧ b.Values v w

variable {b b' c : Bridge}

namespace Below

theorem refl (b : Bridge) : b.Below b := ⟨fun _ _ => id, .refl _, .refl _⟩

theorem trans (h : b.Below b') (h' : b'.Below c) : b.Below c :=
  ⟨fun _ _ hp => h'.pairs (h.pairs hp), h.near.trans h'.near, h.far.trans h'.far⟩

theorem refs (h : b.Below b') {r q : Ref} (hr : b.Refs r q) : b'.Refs r q := by
  cases hr with
  | paired hp => exact .paired (h.pairs hp)
  | string hr hq => exact .string (h.near.string? hr) (h.far.string? hq)

theorem values (h : b.Below b') {v w : Value} (hv : b.Values v w) : b'.Values v w := by
  cases hv with
  | nil => exact .nil
  | bool x => exact .bool x
  | number x => exact .number x
  | object hr => exact .object (h.refs hr)

theorem names (h : b.Below b') {r q : Option Ref} (hr : b.Names r q) : b'.Names r q := by
  cases hr with
  | none => exact .none
  | some hr hq => exact .some (h.near.string? hr) (h.far.string? hq)

theorem constants (h : b.Below b') {pool pool' ext ext' : Array Value} {k k' : UInt8}
    (hp : Within pool ext) (hp' : Within pool' ext') (hk : b.Constants pool pool' k k') :
    b'.Constants ext ext' k k' := by
  obtain ⟨v, w, hv, hw, values⟩ := hk
  exact ⟨v, w, hp hv, hp' hw, h.values values⟩

end Below

/-- A bridge that takes no two objects together and pairs no strings. -/
structure Faithful (b : Bridge) : Prop where
  unique : ∀ ⦃r q q'⦄, b.pairs r q → b.pairs r q' → q = q'
  injective : ∀ ⦃r r' q⦄, b.pairs r q → b.pairs r' q → r = r'
  plain : ∀ ⦃r q⦄, b.pairs r q → b.near.string? r = none ∧ b.far.string? q = none
  near : b.near.Sound
  far : b.far.Sound

section Compare

theorem string?_inj {h : Heap} (hs : h.Sound) {r q : Ref} {text : String}
    (hr : h.string? r = some text) (hq : h.string? q = some text) : r = q :=
  Option.some.inj ((hs.findString?_eq_some.2 hr).symm.trans (hs.findString?_eq_some.2 hq))

theorem Faithful.refs_eq_iff (f : b.Faithful) {r r' q q' : Ref} (h : b.Refs r q)
    (h' : b.Refs r' q') : r = r' ↔ q = q' := by
  cases h with
  | paired hp =>
    cases h' with
    | paired hp' =>
      refine ⟨fun e => ?_, fun e => ?_⟩
      · subst e
        exact f.unique hp hp'
      · subst e
        exact f.injective hp hp'
    | string hr' hq' =>
      obtain ⟨plain, plain'⟩ := f.plain hp
      refine ⟨fun e => ?_, fun e => ?_⟩
      · rw [e, hr'] at plain
        cases plain
      · rw [e, hq'] at plain'
        cases plain'
  | string hr hq =>
    cases h' with
    | paired hp' =>
      obtain ⟨plain, plain'⟩ := f.plain hp'
      refine ⟨fun e => ?_, fun e => ?_⟩
      · rw [← e, hr] at plain
        cases plain
      · rw [← e, hq] at plain'
        cases plain'
    | string hr' hq' =>
      refine ⟨fun e => ?_, fun e => ?_⟩
      · subst e
        obtain rfl := Option.some.inj (hr.symm.trans hr')
        exact string?_inj f.far hq hq'
      · subst e
        obtain rfl := Option.some.inj (hq.symm.trans hq')
        exact string?_inj f.near hr hr'

/-- Values compare in the same way on both sides. -/
theorem Faithful.beq_eq (f : b.Faithful) {v v' w w' : Value} (h : b.Values v w)
    (h' : b.Values v' w') : (v == v') = (w == w') := by
  cases h with
  | object hr =>
    cases h' with
    | object hr' =>
      have e := f.refs_eq_iff hr hr'
      rw [Bool.eq_iff_iff]
      simpa [BEq.beq, Value.equals] using e
    | _ => rfl
  | _ => cases h' <;> rfl

theorem Values.isFalsey {v w : Value} (h : b.Values v w) : w.isFalsey = v.isFalsey := by
  cases h <;> rfl

theorem Values.text? (f : b.Faithful) {v w : Value} (h : b.Values v w) :
    b.far.text? w = b.near.text? v := by
  cases h with
  | object hr =>
    cases hr with
    | paired hp =>
      obtain ⟨plain, plain'⟩ := f.plain hp
      rw [Heap.text?, Heap.text?, plain, plain']
    | string hr hq => rw [Heap.text?, Heap.text?, hr, hq]
  | _ => rfl

end Compare
end Bridge
end StackScript
