import StackScript.Proofs.Machine.Reachable
import StackScript.Proofs.Store.Canonical

/-!
# StackScript.Proofs.Machine.Interned

Strings of a machine are equal exactly if their texts are.

* `Reachable.onward`, `Reachable.built`: the heap of a machine is built by interning and allocating.
* `regrouped`: whether three values have the same sum from the left and from the right.
* `interning_canonical`: heaps that are built are canonical, those of machines are built, and joining
  strings is associative.
-/

namespace StackScript
namespace Machine

open Heap (Built)

theorem size_intern_le (h : Heap) (text : String) : (h.intern text).1.size ≤ h.size + 1 := by
  unfold Heap.intern
  split
  · exact Nat.le_succ _
  · exact Nat.le_of_eq (h.size_allocate _)

/-- Every native takes a name and an object. -/
theorem built_define {m : Machine} {texts : List String} (b : Built m.heap texts) (name : String)
    (arity : Nat) (p : Procedure) (fits : m.heap.size + 2 ≤ UInt32.size) :
    (∃ texts', Built (m.define name arity p).heap texts') ∧
      (m.define name arity p).heap.size ≤ m.heap.size + 2 := by
  have named := size_intern_le m.heap name
  have size := Heap.size_allocate (m.heap.intern name).1 (.native ⟨name, arity, p⟩)
  have all : (m.define name arity p).heap =
      ((m.heap.intern name).1.allocate (.native ⟨name, arity, p⟩)).1 := rfl
  rw [all]
  exact ⟨⟨_, .allocate nofun (.intern name b (by omega)) (by omega)⟩, by omega⟩

theorem built_new (output : Output) (world : World) :
    ∃ texts, Built (Machine.new output world).heap texts := by
  have fold (bs : List Builtin) (m : Machine) (texts : List String) (b : Built m.heap texts)
      (fits : m.heap.size + 2 * bs.length ≤ UInt32.size) : ∃ texts',
        Built (bs.foldl (fun m b => m.define b.name b.arity (.builtin b)) m).heap texts' := by
    induction bs generalizing m texts with
    | nil => exact ⟨texts, b⟩
    | cons native bs ih =>
      rw [List.length_cons] at fits
      obtain ⟨⟨texts', b'⟩, size⟩ :=
        built_define b native.name native.arity (.builtin native) (by omega)
      exact ih (m.define native.name native.arity (.builtin native)) texts' b' (by omega)
  unfold Machine.new
  refine fold Builtin.all _ [] .empty ?_
  change 0 + 2 * Builtin.all.length ≤ UInt32.size
  decide

section Reachable

variable {m : Machine}

/-- The heap of a machine has gone on from that of a new one. -/
theorem Reachable.onward (h : Reachable m) :
    ∃ output world, (Machine.new output world).heap.Onward m.heap := by
  induction h with
  | new output world => exact ⟨output, world, .refl⟩
  | outside world _ ih => exact ih
  | load source h _ ih =>
    obtain ⟨output, world, o⟩ := ih
    exact ⟨output, world, o.trans (Larger.load h.hosts source).onward⟩
  | step h _ ih =>
    obtain ⟨output, world, o⟩ := ih
    exact ⟨output, world, o.trans (Larger.step h.hosts).onward⟩
  | run n h _ ih =>
    obtain ⟨output, world, o⟩ := ih
    exact ⟨output, world, o.trans (Larger.run n h.hosts).onward⟩
  | interpret n source h _ _ ih =>
    obtain ⟨output, world, o⟩ := ih
    exact ⟨output, world, o.trans (Larger.interpret h.hosts n source).onward⟩

theorem Reachable.built (h : Reachable m) (fits : m.heap.size ≤ UInt32.size) :
    ∃ texts, Built m.heap texts := by
  obtain ⟨output, world, o⟩ := h.onward
  obtain ⟨texts, b⟩ := built_new output world
  obtain ⟨more, b⟩ := b.onward o fits
  exact ⟨_, b⟩

end Reachable

section Join

variable {m : Machine} {a b c : Value} {s t u : String}

/-- Whether `(a + b) + c == a + (b + c)`, with the operations in the order of the source. -/
def regrouped (a b c : Value) : Exec Bool := do
  let ab ← sum a b
  let left ← sum ab c
  let bc ← sum b c
  let right ← sum a bc
  return left == right

/-- A machine that has more objects than there are handles. -/
structure Overfull (m : Machine) : Prop where
  hosts : m.hosts = #[]
  size : UInt32.size < m.heap.size

theorem Overfull.stable : Stable Overfull where
  hosts h := h.hosts
  push _ h _ := ⟨h.hosts, h.size⟩
  shrink h _ := ⟨h.hosts, h.size⟩
  ip _ h _ := ⟨h.hosts, h.size⟩
  call _ _ _ h _ := ⟨h.hosts, h.size⟩
  heap h onward := ⟨h.hosts, Nat.lt_of_lt_of_le h.size onward.size_le⟩
  upvalues _ h := ⟨h.hosts, h.size⟩
  globals _ h := ⟨h.hosts, h.size⟩
  outside _ _ h := ⟨h.hosts, h.size⟩

theorem text?_intern {h : Heap} {v : Value} {text : String} (hv : h.text? v = some text)
    (other : String) : (h.intern other).1.text? v = some text := by
  cases v with
  | object r => exact (h.extends_intern other).string? hv
  | _ => cases hv

/-- The sum of two strings is the string with the joined text. -/
theorem ends_sum {Q : Value → Machine → Prop} {E : Stop → Machine → Prop}
    (ha : m.heap.text? a = some s) (hb : m.heap.text? b = some t)
    (h : Q (.object (m.heap.intern (s ++ t)).2) { m with heap := (m.heap.intern (s ++ t)).1 }) :
    Ends (sum a b) m Q E := by
  unfold sum
  split
  next => cases ha
  next =>
    refine .bind (.get ?_)
    simp only [ha, hb]
    exact .bind (.intern (.pure h))

/-- Where the handles have not run out, the two sums are equal. -/
def Regroups (x : Exec Bool) (m : Machine) : Prop :=
  Ends x m (fun e m' => m'.heap.size ≤ UInt32.size → e = true) fun _ m' =>
    UInt32.size < m'.heap.size

theorem Overfull.regroups {x : Exec Bool} (k : Keeps Overfull x) (h : Overfull m) :
    Regroups x m :=
  (k m h).imp (fun _ _ h' fits => absurd fits (Nat.not_le_of_lt h'.size)) fun _ _ h' => h'.size

/-- One more sum of two strings. -/
theorem Regroups.sum {f : Value → Exec Bool} (k : ∀ v, Keeps Overfull (f v)) (hosts : m.hosts = #[])
    (hs : m.heap.Sound) (ha : m.heap.text? a = some s) (hb : m.heap.text? b = some t)
    (h : ∀ heap r, heap.Sound → (∀ v text, m.heap.text? v = some text → heap.text? v = some text) →
      heap.text? (.object r) = some (s ++ t) → Regroups (f (.object r)) { m with heap }) :
    Regroups (Machine.sum a b >>= f) m := by
  refine .bind (ends_sum ha hb ?_)
  by_cases fits : (m.heap.intern (s ++ t)).1.size ≤ UInt32.size
  · exact h _ _ (hs.intern fits) (fun v text hv => text?_intern hv _)
      (m.heap.string?_intern (s ++ t) fits)
  · exact Overfull.regroups (k _) ⟨hosts, Nat.lt_of_not_le fits⟩

theorem regroups_strings (hosts : m.hosts = #[]) (hs : m.heap.Sound)
    (ha : m.heap.text? a = some s) (hb : m.heap.text? b = some t)
    (hc : m.heap.text? c = some u) : Regroups (regrouped a b c) m := by
  have sums (a b : Value) : Keeps Overfull (Machine.sum a b) := .sum Overfull.stable a b
  refine .sum (fun _ => .bind (sums _ _) fun _ => .bind (sums _ _) fun _ => .bind (sums _ _)
    fun _ => .pure _) hosts hs ha hb fun heap₁ ab hs₁ kept₁ hab => ?_
  refine .sum (fun _ => .bind (sums _ _) fun _ => .bind (sums _ _) fun _ => .pure _) hosts hs₁ hab
    (kept₁ _ _ hc) fun heap₂ left hs₂ kept₂ hleft => ?_
  refine .sum (fun _ => .bind (sums _ _) fun _ => .pure _) hosts hs₂ (kept₂ _ _ (kept₁ _ _ hb))
    (kept₂ _ _ (kept₁ _ _ hc)) fun heap₃ bc hs₃ kept₃ hbc => ?_
  refine .sum (fun _ => .pure _) hosts hs₃ (kept₃ _ _ (kept₂ _ _ (kept₁ _ _ ha))) hbc
    fun heap₄ right hs₄ kept₄ hright => .pure fun _ => ?_
  rw [← String.append_assoc] at hright
  obtain rfl : left = right := hs₄.once (kept₄ _ _ (kept₃ _ _ hleft)) hright
  exact beq_self_eq_true left

end Join

/-- Interning is canonical. In a heap that is built by interning, allocating, changing and releasing
objects, strings have the same handle exactly if they have the same text, and the strings found are
those that were interned. The heap of every machine is built in this way, and joining strings is
associative, as long as there are handles. -/
theorem interning_canonical :
    (∀ heap texts, Built heap texts → heap.Canonical texts) ∧
    ∀ m, Reachable m → m.heap.size ≤ UInt32.size →
      (∃ texts, Built m.heap texts ∧ m.heap.Canonical texts) ∧
      ∀ a b c s t u, m.heap.text? a = some s → m.heap.text? b = some t →
        m.heap.text? c = some u →
        Ends (regrouped a b c) m (fun e m' => m'.heap.size ≤ UInt32.size → e = true)
          fun _ m' => UInt32.size < m'.heap.size := by
  refine ⟨fun _ _ => Built.canonical, fun m h fits => ?_⟩
  obtain ⟨texts, b⟩ := h.built fits
  exact ⟨⟨texts, b, b.canonical⟩,
    fun _ _ _ _ _ _ ha hb hc => regroups_strings h.hosts b.sound ha hb hc⟩

theorem reachable_joining : Reachable (((new .unlimited .still).load
    "print \"a\" + \"b\" == \"ab\";").2.run 2).2 := by
  have runs : (((new .unlimited .still).load "print \"a\" + \"b\" == \"ab\";").2.run 2).1 =
      .running := by
    decide +kernel
  refine .run 2 (.load _ (.new _ _) (by decide +kernel)) fun code e => ?_
  rw [runs] at e
  cases e

/-- A text that is interned twice, with an array between, and a script about to join two strings. -/
theorem interning_canonical_joining :
    let heap := (((Heap.empty.intern "ab").1.allocate (.array #[])).1.intern "ab").1
    let m := (((new .unlimited .still).load "print \"a\" + \"b\" == \"ab\";").2.run 2).2
    (Built heap ["ab", "ab"] ∧ heap.Canonical ["ab", "ab"]) ∧
    Reachable m ∧ m.heap.size ≤ UInt32.size ∧
    (∃ texts, Built m.heap texts ∧ m.heap.Canonical texts) ∧
    m.heap.text? (.object ⟨20⟩) = some "a" ∧ m.heap.text? (.object ⟨22⟩) = some "ab" ∧
    Ends (regrouped (.object ⟨20⟩) (.object ⟨22⟩) (.object ⟨20⟩)) m
      (fun e m' => m'.heap.size ≤ UInt32.size → e = true) fun _ m' =>
        UInt32.size < m'.heap.size := by
  have size : (((new .unlimited .still).load "print \"a\" + \"b\" == \"ab\";").2.run
      2).2.heap.size = 25 := by
    decide +kernel
  have small : (((new .unlimited .still).load "print \"a\" + \"b\" == \"ab\";").2.run
      2).2.heap.size ≤ UInt32.size := by
    rw [size]
    decide
  have first : Built (Heap.empty.intern "ab").1 ["ab"] := .intern "ab" .empty (by decide +kernel)
  have second : Built ((Heap.empty.intern "ab").1.allocate (.array #[])).1 ["ab"] :=
    .allocate nofun first (by decide +kernel)
  have third := Built.intern "ab" second (by decide +kernel)
  have left : (((new .unlimited .still).load "print \"a\" + \"b\" == \"ab\";").2.run
      2).2.heap.text? (.object ⟨20⟩) = some "a" := by
    decide +kernel
  have right : (((new .unlimited .still).load "print \"a\" + \"b\" == \"ab\";").2.run
      2).2.heap.text? (.object ⟨22⟩) = some "ab" := by
    decide +kernel
  obtain ⟨built, joins⟩ := interning_canonical.2 _ reachable_joining small
  exact ⟨⟨third, interning_canonical.1 _ _ third⟩, reachable_joining, small, built, left, right,
    joins _ _ _ _ _ _ left right left⟩

end Machine
end StackScript
