import StackScript.Proofs.Entrywise
import StackScript.Proofs.Semantics.Concur
import StackScript.Proofs.Semantics.Relation
import StackScript.Proofs.Syntax.Alike

/-!
# StackScript.Proofs.Semantics.Kin

The stores of two evaluations that do the same.

* `Pairing`: which far cell a near cell is, and which far cells are global variables of the near
  store. Arrays and closures have the same numbers in both.
* `Sees`: a name means the same variable in both.
* `Twin`: two closures do the same.
* `Kin`: two stores have the same.
-/

namespace StackScript
namespace Semantics

open Syntax (Alike)

structure Pairing where
  /-- the far cells of the near ones, by their numbers -/
  cells : List Nat
  /-- the far cells of global variables -/
  tops : Env

/-- More cells. -/
structure Pairing.Le (κ κ' : Pairing) : Prop where
  cells : κ.cells <+: κ'.cells
  tops : κ'.tops = κ.tops

namespace Pairing.Le

theorem refl (κ : Pairing) : κ.Le κ := ⟨List.prefix_refl _, rfl⟩

theorem trans {κ κ₁ κ' : Pairing} (l : κ.Le κ₁) (l' : κ₁.Le κ') : κ.Le κ' :=
  ⟨l.cells.trans l'.cells, l'.tops.trans l.tops⟩

end Pairing.Le

/-- A name means the same variable in two environments, given its cells. What is global in both
stays so. -/
inductive Sees (R : Race) (κ : Pairing) (name : String) : Option Nat → Option Nat → Prop where
  | cell {c c' : Nat} : κ.cells[c]? = some c' → Sees R κ name (some c) (some c')
  | top {c' : Nat} : (name, c') ∈ κ.tops → Sees R κ name none (some c')
  | global : name ∉ R.moved → Sees R κ name none none

theorem Sees.mono {R : Race} {κ κ' : Pairing} {name : String} {o o' : Option Nat}
    (h : Sees R κ name o o') (cells : κ.cells <+: κ'.cells) (tops : ∀ p ∈ κ.tops, p ∈ κ'.tops) :
    Sees R κ' name o o' := by
  cases h with
  | cell hc => exact .cell (getElem?_longer cells hc)
  | top ht => exact .top (tops _ ht)
  | global hn => exact .global hn

theorem Sees.later {R : Race} {κ κ' : Pairing} {name : String} {o o' : Option Nat}
    (h : Sees R κ name o o') (l : κ.Le κ') : Sees R κ' name o o' :=
  h.mono l.cells fun _ hp => l.tops ▸ hp

/-- Two closures do the same. -/
structure Twin (R : Race) (κ : Pairing) (f g : Lambda) : Prop where
  name : g.name = f.name
  parameters : g.parameters = f.parameters
  body : Alike R.endless f.body g.body
  sees : ∀ x ∈ f.body.free, x ∉ f.parameters → Sees R κ x (f.env.lookup x) (g.env.lookup x)

/-- Two stores have the same. -/
structure Kin (R : Race) (κ : Pairing) (s t : Store) : Prop where
  size : κ.cells.length = s.cells.size
  cells : ∀ c c' : Nat, κ.cells[c]? = some c' → ∃ v, s.cells[c]? = some v ∧ t.cells[c']? = some v
  tops : ∀ p ∈ κ.tops, ∃ v, s.globals p.1 = some v ∧ t.cells[p.2]? = some v
  /-- No two variables share a far cell. -/
  once : (κ.cells ++ κ.tops.map Prod.snd).Nodup
  named : (κ.tops.map Prod.fst).Nodup
  moved : ∀ p ∈ κ.tops, p.1 ∈ R.moved
  globals : ∀ x, x ∉ κ.tops.map Prod.fst → s.globals x = t.globals x
  arrays : s.arrays = t.arrays
  closures : List.Forall₂ (Twin R κ) s.closures.toList t.closures.toList
  output : s.output = t.output
  world : s.world = t.world

namespace Kin

variable {R : Race} {κ κ' : Pairing} {s t : Store} {v : Val} {x : String} {c c' : Nat}

theorem lt_of_mem (k : Kin R κ s t) (hc : c' ∈ κ.cells ++ κ.tops.map Prod.snd) :
    c' < t.cells.size := by
  have found : ∃ v, t.cells[c']? = some v := by
    obtain hc | hc := List.mem_append.1 hc
    · obtain ⟨c, hc⟩ := List.mem_iff_getElem?.1 hc
      obtain ⟨v, -, hv⟩ := k.cells _ _ hc
      exact ⟨v, hv⟩
    · obtain ⟨p, hp, rfl⟩ := List.mem_map.1 hc
      obtain ⟨v, -, hv⟩ := k.tops p hp
      exact ⟨v, hv⟩
  obtain ⟨v, hv⟩ := found
  exact (Array.getElem?_eq_some_iff.1 hv).1

/-- The cells of two variables are different. -/
theorem pair_ne_top (k : Kin R κ s t) (hc : c' ∈ κ.cells) {p : String × Nat} (hp : p ∈ κ.tops) :
    p.2 ≠ c' := fun e =>
  (List.nodup_append.1 k.once).2.2 _ hc _ (List.mem_map_of_mem hp) e.symm

section New

theorem twins (h : List.Forall₂ (Twin R κ) s.closures.toList t.closures.toList)
    (cells : κ.cells <+: κ'.cells) (tops : ∀ p ∈ κ.tops, p ∈ κ'.tops) :
    List.Forall₂ (Twin R κ') s.closures.toList t.closures.toList :=
  h.imp fun _ _ f => ⟨f.name, f.parameters, f.body, fun x hx hp => (f.sees x hx hp).mono cells tops⟩

theorem getElem?_push_old {cells : Array Val} {w : Val} (hc : cells[c]? = some w) (v : Val) :
    (cells.push v)[c]? = some w := by
  have lt := (Array.getElem?_eq_some_iff.1 hc).1
  rw [Array.getElem?_push, if_neg (by omega), hc]

theorem fresh (k : Kin R κ s t) : t.cells.size ∉ κ.cells ++ κ.tops.map Prod.snd := fun h =>
  Nat.lt_irrefl _ (k.lt_of_mem h)

/-- Both get a new cell. -/
theorem newCell (k : Kin R κ s t) (v : Val) :
    Kin R ⟨κ.cells ++ [t.cells.size], κ.tops⟩ { s with cells := s.cells.push v }
      { t with cells := t.cells.push v } := by
  refine ⟨?_, fun c c' hc => ?_, fun p hp => ?_, ?_, k.named, k.moved, k.globals, k.arrays,
    twins k.closures (List.prefix_append _ _) fun _ => id, k.output, k.world⟩
  · rw [List.length_append, k.size, Array.size_push]
    rfl
  · rw [List.getElem?_append] at hc
    split at hc
    next =>
      obtain ⟨w, hw, hw'⟩ := k.cells _ _ hc
      exact ⟨w, getElem?_push_old hw v, getElem?_push_old hw' v⟩
    next ge =>
      obtain ⟨lt, rfl⟩ := List.getElem?_eq_some_iff.1 hc
      rw [List.length_singleton] at lt
      obtain rfl : c = s.cells.size := by
        have := k.size
        omega
      exact ⟨v, by simp, by simp⟩
  · obtain ⟨w, hw, hc⟩ := k.tops p hp
    exact ⟨w, hw, getElem?_push_old hc v⟩
  · have once := k.once
    have fresh := k.fresh
    simp only [List.nodup_append, List.mem_append, not_or] at once fresh ⊢
    grind

/-- A global variable is declared that is a local variable of the far script. -/
theorem newTop (k : Kin R κ s t) (new : x ∉ κ.tops.map Prod.fst) (moved : x ∈ R.moved) (v : Val) :
    Kin R ⟨κ.cells, (x, t.cells.size) :: κ.tops⟩ (s.define x v)
      { t with cells := t.cells.push v } := by
  refine ⟨k.size, fun c c' hc => ?_, fun p hp => ?_, ?_, List.nodup_cons.2 ⟨new, k.named⟩,
    List.forall_mem_cons.2 ⟨moved, k.moved⟩, fun y hy => ?_, k.arrays,
    twins k.closures (List.prefix_refl _) fun _ => List.mem_cons_of_mem _, k.output, k.world⟩
  · obtain ⟨w, hw, hw'⟩ := k.cells c c' hc
    exact ⟨w, hw, getElem?_push_old hw' v⟩
  · obtain rfl | hp := List.mem_cons.1 hp
    · exact ⟨v, if_pos rfl, by simp⟩
    · obtain ⟨w, hw, hc⟩ := k.tops p hp
      have ne : p.1 ≠ x := fun e => new (e ▸ List.mem_map_of_mem hp)
      exact ⟨w, (if_neg ne).trans hw, getElem?_push_old hc v⟩
  · have once := k.once
    have fresh := k.fresh
    rw [List.map_cons]
    simp only [List.nodup_append, List.nodup_cons, List.mem_append, not_or] at once fresh ⊢
    grind
  · rw [List.map_cons, List.mem_cons, not_or] at hy
    exact (if_neg hy.1).trans (k.globals y hy.2)

end New

section Variables

theorem cell_eq (k : Kin R κ s t) (hc : κ.cells[c]? = some c') : s.cell c = t.cell c' := by
  obtain ⟨v, hv, hv'⟩ := k.cells _ _ hc
  rw [Store.cell, Store.cell, hv, hv']

theorem top_eq (k : Kin R κ s t) (ht : (x, c') ∈ κ.tops) : s.globals x = some (t.cell c') := by
  obtain ⟨v, hv, hv'⟩ := k.tops _ ht
  rw [Store.cell, hv', hv]
  rfl

theorem global_eq (k : Kin R κ s t) (hx : x ∉ R.moved) : s.globals x = t.globals x :=
  k.globals x fun h => by
    obtain ⟨p, hp, rfl⟩ := List.mem_map.1 h
    exact hx (k.moved p hp)

/-- A value of a far cell, behind an assignment. -/
theorem getElem?_set (cells : Array Val) (lt : c < cells.size) (v : Val) (d : Nat) :
    (cells.setIfInBounds c v)[d]? = if c = d then some v else cells[d]? := by
  by_cases e : c = d
  · subst e
    rw [if_pos rfl, Array.getElem?_setIfInBounds_self_of_lt lt]
  · rw [if_neg e, Array.getElem?_setIfInBounds_ne e]

theorem setCell (k : Kin R κ s t) (hc : κ.cells[c]? = some c') (v : Val) :
    Kin R κ { s with cells := s.cells.setIfInBounds c v }
      { t with cells := t.cells.setIfInBounds c' v } := by
  have mem : c' ∈ κ.cells := List.mem_of_getElem? hc
  have lt := k.lt_of_mem (List.mem_append_left _ mem)
  obtain ⟨_, hv, -⟩ := k.cells _ _ hc
  have lt' := (Array.getElem?_eq_some_iff.1 hv).1
  refine ⟨k.size.trans (by simp), fun d d' hd => ?_, fun p hp => ?_, k.once, k.named, k.moved,
    k.globals, k.arrays, k.closures, k.output, k.world⟩
  · rw [getElem?_set _ lt, getElem?_set _ lt']
    by_cases e : c = d
    · subst e
      rw [if_pos rfl, if_pos (Option.some.inj (hc.symm.trans hd))]
      exact ⟨v, rfl, rfl⟩
    · have ne : c' ≠ d' := fun e' => e ((List.getElem?_inj (List.getElem?_eq_some_iff.1 hc).1
        (List.nodup_append.1 k.once).1).1 (hc.trans (e' ▸ hd.symm)))
      rw [if_neg e, if_neg ne]
      exact k.cells d d' hd
  · obtain ⟨w, hw, hp'⟩ := k.tops p hp
    exact ⟨w, hw, by rw [getElem?_set _ lt, if_neg (k.pair_ne_top mem hp).symm, hp']⟩

/-- A variable is assigned that is global in the near script only. -/
theorem setTop (k : Kin R κ s t) (ht : (x, c') ∈ κ.tops) (v : Val) :
    Kin R κ (s.define x v) { t with cells := t.cells.setIfInBounds c' v } := by
  have lt := k.lt_of_mem (List.mem_append_right _ (List.mem_map_of_mem ht))
  refine ⟨k.size, fun d d' hd => ?_, fun p hp => ?_, k.once, k.named, k.moved, fun y hy => ?_,
    k.arrays, k.closures, k.output, k.world⟩
  · obtain ⟨w, hw, hd'⟩ := k.cells d d' hd
    exact ⟨w, hw, by rw [getElem?_set _ lt, if_neg (k.pair_ne_top (List.mem_of_getElem? hd) ht), hd']⟩
  · rw [getElem?_set _ lt]
    by_cases e : p = (x, c')
    · subst e
      exact ⟨v, if_pos rfl, if_pos rfl⟩
    · obtain ⟨w, hw, hp'⟩ := k.tops p hp
      have ne : p.1 ≠ x := fun h => e (List.inj_on_of_nodup_map k.named hp ht h)
      have ne' : c' ≠ p.2 := fun h =>
        e (List.inj_on_of_nodup_map (List.nodup_append.1 k.once).2.1 hp ht h.symm)
      exact ⟨w, (if_neg ne).trans hw, (if_neg ne').trans hp'⟩
  · have ne : y ≠ x := by
      rintro rfl
      exact hy (List.mem_map_of_mem ht)
    exact (if_neg ne).trans (k.globals y hy)

theorem define (k : Kin R κ s t) (hx : x ∉ R.moved) (v : Val) :
    Kin R κ (s.define x v) (t.define x v) := by
  refine ⟨k.size, k.cells, fun p hp => ?_, k.once, k.named, k.moved, fun y hy => ?_, k.arrays, k.closures,
    k.output, k.world⟩
  · obtain ⟨w, hw, hp'⟩ := k.tops p hp
    have ne : p.1 ≠ x := fun e => hx (e ▸ k.moved p hp)
    exact ⟨w, (if_neg ne).trans hw, hp'⟩
  · show (if _ then _ else _) = if _ then _ else _
    rw [k.globals y hy]

end Variables

end Kin

end Semantics
end StackScript
