import StackScript.Proofs.Semantics.Kin

/-!
# StackScript.Proofs.Semantics.Beside

What two evaluations do in single operations is the same.

* `Kin.display`, `Kin.answer`: kindred stores show the same, and natives answer the same in them.
* `Beside`: two sites where some names mean the same.
* `Still`: the results are the same, and the stores are kindred still.
* `Beside.put`, `Beside.read`, `Beside.assign`, `Beside.declare` and so on: the operations.
-/

namespace StackScript
namespace Semantics

open Machine (Fault)
open Syntax (Alike)

section Kin

variable {R : Race} {κ κ' : Pairing} {s t : Store} {v : Val}

namespace Kin

theorem elements_eq (k : Kin R κ s t) (id : Nat) : s.elements id = t.elements id := by
  rw [Store.elements, Store.elements, k.arrays]

theorem element_eq (k : Kin R κ s t) (v w : Val) : s.element v w = t.element v w := by
  unfold Store.element
  simp only [k.elements_eq]

theorem displayUpTo (k : Kin R κ s t) (levels : Nat) (v : Val) :
    s.displayUpTo levels v = t.displayUpTo levels v := by
  have named (n id : Nat) : s.displayUpTo n (.closure id) = t.displayUpTo n (.closure id) := by
    have twins := k.closures
    rw [Store.displayUpTo, Store.displayUpTo, ← Array.getElem?_toList, ← Array.getElem?_toList]
    cases hf : s.closures.toList[id]? with
    | none =>
      have le := twins.length_eq ▸ List.getElem?_eq_none_iff.1 hf
      rw [List.getElem?_eq_none le]
    | some f =>
      obtain ⟨g, hg, twin⟩ := forall₂_getElem? twins hf
      rw [hg]
      dsimp only
      rw [twin.name]
  induction levels generalizing v with
  | zero => cases v <;> first | rfl | exact named _ _
  | succ levels ih =>
    cases v with
    | closure id => exact named _ id
    | array id =>
      rw [Store.displayUpTo, Store.displayUpTo, k.elements_eq, funext ih]
    | _ => rfl

theorem display (k : Kin R κ s t) (v : Val) : s.display v = t.display v := k.displayUpTo _ v

theorem answer (k : Kin R κ s t) (b : Builtin) (v : Val) : s.answer b v = t.answer b v := by
  have array : s.arrayArgument b = t.arrayArgument b := by
    funext v
    cases v <;> simp only [Store.arrayArgument, k.elements_eq]
  cases b <;> simp only [Store.answer, Store.extreme, array, k.world]

theorem withOutput (k : Kin R κ s t) (output : Machine.Output) :
    Kin R κ { s with output } { t with output } :=
  ⟨k.size, k.cells, k.tops, k.once, k.named, k.moved, k.globals, k.arrays, k.closures, rfl, k.world⟩

theorem withWorld (k : Kin R κ s t) (world : Machine.World) :
    Kin R κ { s with world } { t with world } :=
  ⟨k.size, k.cells, k.tops, k.once, k.named, k.moved, k.globals, k.arrays, k.closures, k.output, rfl⟩

theorem mapArrays (k : Kin R κ s t) (f : Array (Array Val) → Array (Array Val)) :
    Kin R κ { s with arrays := f s.arrays } { t with arrays := f t.arrays } :=
  ⟨k.size, k.cells, k.tops, k.once, k.named, k.moved, k.globals, congrArg f k.arrays, k.closures,
    k.output, k.world⟩

theorem size_closures (k : Kin R κ s t) : s.closures.size = t.closures.size := by
  rw [← Array.length_toList, k.closures.length_eq, Array.length_toList]

theorem newClosure (k : Kin R κ s t) {f g : Lambda} (twin : Twin R κ f g) :
    Kin R κ { s with closures := s.closures.push f } { t with closures := t.closures.push g } := by
  refine ⟨k.size, k.cells, k.tops, k.once, k.named, k.moved, k.globals, k.arrays, ?_, k.output,
    k.world⟩
  rw [Array.toList_push, Array.toList_push]
  exact List.rel_append k.closures (.cons twin .nil)

end Kin
end Kin

/-- Two sites where names mean the same. -/
structure Beside (R : Race) (κ : Pairing) (names : List String) (σ σ' : Site) : Prop where
  sees : ∀ x ∈ names, Sees R κ x (σ.env.lookup x) (σ'.env.lookup x)
  calls : σ.calls = σ'.calls
  height : σ.height = σ'.height ∨ (R.near.places = none ∧ R.far.places = none)

/-- The results are the same, and so are the stores. -/
def Still {α : Type} (R : Race) (κ : Pairing) (a b : α) (s t : Store) : Prop :=
  a = b ∧ ∃ κ', κ.Le κ' ∧ Kin R κ' s t

theorem Kin.still {α : Type} {R : Race} {κ : Pairing} {s t : Store} (k : Kin R κ s t) (a : α) :
    Still R κ a a s t := ⟨rfl, κ, .refl κ, k⟩

theorem Concur.still {α : Type} {R : Race} {κ κ' : Pairing} {r r' : Option (Except Halt α × Store)}
    (l : κ.Le κ') (h : Concur R (Still R κ') r r') : Concur R (Still R κ) r r' :=
  h.imp fun _ _ _ _ ⟨e, κ₁, l', k⟩ => ⟨e, κ₁, l.trans l', k⟩

namespace Beside

variable {α β : Type} {R : Race} {κ κ' : Pairing} {names names' : List String} {σ σ' : Site} {s t : Store}
  {v : Val}

theorem sub (b : Beside R κ names σ σ') (h : ∀ x ∈ names', x ∈ names) : Beside R κ names' σ σ' :=
  ⟨fun x hx => b.sees x (h x hx), b.calls, b.height⟩

theorem left (b : Beside R κ (names ++ names') σ σ') : Beside R κ names σ σ' :=
  b.sub fun _ => List.mem_append_left _

theorem right (b : Beside R κ (names ++ names') σ σ') : Beside R κ names' σ σ' :=
  b.sub fun _ => List.mem_append_right _

theorem later (b : Beside R κ names σ σ') (l : κ.Le κ') : Beside R κ' names σ σ' :=
  ⟨fun x hx => (b.sees x hx).later l, b.calls, b.height⟩

theorem up (b : Beside R κ names σ σ') : Beside R κ names σ.up σ'.up :=
  ⟨b.sees, b.calls, b.height.imp_left (congrArg (· + 1))⟩

theorem inside (b : Beside R κ names σ σ') : Beside R κ names σ.inside σ'.inside :=
  ⟨b.sees, b.calls, b.height⟩

theorem within (b : Beside R κ names σ σ') : Beside R κ names σ σ'.inside :=
  ⟨b.sees, b.calls, b.height⟩

section Values

variable {Q : α → β → Store → Store → Prop}

theorem fail (b : Beside R κ names σ σ') (k : Kin R κ s t) (f : Fault) :
    Concur R Q ((σ.fail f : Eval α) s) ((σ'.fail f : Eval β) t) := by
  rw [Site.fail, Site.fail, b.calls]
  exact .halt k.output

theorem lift (b : Beside R κ names σ σ') (k : Kin R κ s t) (r : Except Fault α) :
    Concur R (Still R κ) (σ.lift r s) (σ'.lift r t) := by
  cases r with
  | ok a => exact .pure (k.still a)
  | error f => exact b.fail k f

/-- A value is put on the stack in both, or one of them has no place for it. -/
theorem put (fair : R.Fair) (b : Beside R κ names σ σ') (k : Kin R κ s t) (v : Val) :
    Concur R (Still R κ) (Semantics.put R.near σ v s) (Semantics.put R.far σ' v t) := by
  have same : R.near.places.all (σ'.height < ·) = R.near.places.all (σ.height < ·) := by
    obtain e | ⟨e, -⟩ := b.height
    · rw [e]
    · rw [e]
      rfl
  unfold Semantics.put
  cases near : R.near.places.all (σ.height < ·) with
  | true =>
    rw [if_pos rfl]
    cases far : R.far.places.all (σ'.height < ·) with
    | true => exact .pure (k.still v)
    | false => exact .far (fair.farFull _ (same.trans near) far _)
  | false =>
    rw [if_neg Bool.false_ne_true]
    cases far : R.far.places.all (σ'.height < ·) with
    | true => exact .near (fair.nearFull _ far (same.trans near) _)
    | false =>
      rw [if_neg Bool.false_ne_true, b.calls]
      exact .halt k.output

end Values

section Variables

theorem read {x : String} (b : Beside R κ names σ σ') (k : Kin R κ s t) (hx : x ∈ names) :
    Concur R (Still R κ) (σ.read x s) (σ'.read x t) := by
  have sees := b.sees x hx
  unfold Site.read
  generalize σ.env.lookup x = o, σ'.env.lookup x = o' at sees
  cases sees with
  | cell hc =>
    refine .get ?_
    rw [k.cell_eq hc]
    exact .pure (k.still _)
  | top ht =>
    refine .get ?_
    rw [k.top_eq ht]
    exact .pure (k.still _)
  | global hn =>
    refine .get ?_
    rw [k.global_eq hn]
    cases t.globals x with
    | none => exact b.fail k _
    | some v => exact .pure (k.still v)

theorem assign {x : String} (b : Beside R κ names σ σ') (k : Kin R κ s t) (hx : x ∈ names) (v : Val) :
    Concur R (Still R κ) (σ.assign x v s) (σ'.assign x v t) := by
  have sees := b.sees x hx
  unfold Site.assign
  generalize σ.env.lookup x = o, σ'.env.lookup x = o' at sees
  cases sees with
  | cell hc => exact .ok ((k.setCell hc v).still ())
  | @top c' ht =>
    show Concur R _ ((if (s.globals x).isSome then define x v else σ.fail (.undefinedVariable x)) s)
      (setCell c' v t)
    rw [k.top_eq ht]
    exact .ok ((k.setTop ht v).still ())
  | global hn =>
    refine .get ?_
    rw [k.global_eq hn]
    split
    · exact .ok ((k.define hn v).still ())
    · exact b.fail k _

end Variables

theorem native (b : Beside R κ names σ σ') (k : Kin R κ s t) (n : Builtin) (v : Val) :
    Concur R (Still R κ) (σ.native n v s) (σ'.native n v t) := by
  unfold Site.native
  refine .get ?_
  rw [k.answer]
  cases t.answer n v with
  | ok p => exact .ok ((k.withWorld p.2).still p.1)
  | error e =>
    cases e with
    | fault f => exact b.fail k f
    | exit code => exact .halt k.output

end Beside

theorem Kin.printLine {R : Race} {κ : Pairing} {s t : Store} (k : Kin R κ s t) (v : Val) :
    Concur R (Still R κ) (Semantics.printLine v s) (Semantics.printLine v t) := by
  rw [printLine_apply, printLine_apply, k.display, k.output]
  dsimp only
  split
  · exact .ok ((k.withOutput _).still ())
  · exact .halt rfl

end Semantics
end StackScript
