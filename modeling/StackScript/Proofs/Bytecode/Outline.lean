import Mathlib.Data.List.Count
import Mathlib.Data.List.Nodup
import Mathlib.Data.List.Pairwise
import StackScript.Bytecode.Listing
import StackScript.Proofs.Store.Kept

/-!
# StackScript.Proofs.Bytecode.Outline

The functions that the listing of a function goes through.

* `Heap.Walks`: the order in which the listing comes to functions, as a recursion without a bound.
* `Walks.listUpTo`: the text of the listing, if the functions in each pool are older.
* `Walks.once`: no function is in two places if the walk comes to none of them twice.
-/

namespace StackScript
namespace Heap

variable {h : Heap} {r : Ref} {f : Function}

/-- The functions in the pool of a function. -/
def nested (h : Heap) (r : Ref) : List Ref :=
  match h.function? r with
  | none => []
  | some f => h.nestedFunctions f.chunk

theorem nested_eq (hf : h.function? r = some f) : h.nested r = h.nestedFunctions f.chunk := by
  rw [nested, hf]

theorem mem_nestedFunctions {c : Chunk} :
    r ∈ h.nestedFunctions c ↔ .object r ∈ c.constants ∧ (h.function? r).isSome := by
  rw [nestedFunctions, List.mem_filterMap]
  constructor
  · rintro ⟨v, hv, e⟩
    obtain ⟨ref, known⟩ := Option.filter_eq_some_iff.1 e
    cases v with
    | object r' =>
      cases ref
      exact ⟨Array.mem_toList_iff.1 hv, known⟩
    | _ => cases ref
  · rintro ⟨hv, known⟩
    exact ⟨_, Array.mem_toList_iff.2 hv, Option.filter_eq_some_iff.2 ⟨rfl, known⟩⟩

/-- A function is in a pool. -/
def HasAt (h : Heap) (p : Ref × Nat) (r : Ref) : Prop :=
  ∃ f, h.function? p.1 = some f ∧ f.chunk.constants[p.2]? = some (.object r)

/-- A function that is nested in another one once has one place in its pool. -/
theorem HasAt.unique {o : Ref} {i j : Nat} (known : (h.function? r).isSome)
    (distinct : (h.nested o).Nodup) (hi : h.HasAt (o, i) r) (hj : h.HasAt (o, j) r) : i = j := by
  obtain ⟨f, hf, at_i⟩ := hi
  obtain ⟨f', hf', at_j⟩ := hj
  cases hf.symm.trans hf'
  rw [nested_eq hf, nestedFunctions, List.Nodup, List.pairwise_filterMap,
    List.pairwise_iff_getElem] at distinct
  obtain ⟨lt_i, at_i⟩ := Array.getElem?_eq_some_iff.1 at_i
  obtain ⟨lt_j, at_j⟩ := Array.getElem?_eq_some_iff.1 at_j
  have once {i j : Nat} (lt_i : i < f.chunk.constants.size) (lt_j : j < f.chunk.constants.size)
      (at_i : f.chunk.constants[i] = .object r) (at_j : f.chunk.constants[j] = .object r) :
      ¬i < j := by
    intro lt
    refine distinct i j lt_i lt_j lt r ?_ r ?_ rfl
    · rw [Array.getElem_toList, at_i]
      exact Option.filter_eq_some_iff.2 ⟨rfl, known⟩
    · rw [Array.getElem_toList, at_j]
      exact Option.filter_eq_some_iff.2 ⟨rfl, known⟩
  have := once lt_i lt_j at_i at_j
  have := once lt_j lt_i at_j at_i
  omega

/-- The functions that the listing of some functions comes to, in order. -/
inductive Walks (h : Heap) : List Ref → List Ref → Prop where
  | done : Walks h [] []
  | next {r : Ref} {f : Function} {rs inner rest : List Ref} (found : h.function? r = some f)
      (deep : Walks h (h.nestedFunctions f.chunk) inner) (wide : Walks h rs rest) :
      Walks h (r :: rs) (r :: (inner ++ rest))

/-- The listing of a function without those in its pool. -/
def listAlone (h : Heap) (r : Ref) : String :=
  match h.function? r with
  | none => ""
  | some f => f.chunk.listing (h.display (.object r)) h

/-- The parts of a listing, each behind an empty line. -/
def listEach (h : Heap) (rs : List Ref) : String :=
  String.join (rs.map fun r => "\n" ++ h.listAlone r)

theorem listEach_cons (r : Ref) (rs : List Ref) :
    h.listEach (r :: rs) = "\n" ++ h.listAlone r ++ h.listEach rs :=
  String.join_cons

theorem listEach_append (rs rs' : List Ref) :
    h.listEach (rs ++ rs') = h.listEach rs ++ h.listEach rs' := by
  induction rs with
  | nil => exact (String.empty_append).symm
  | cons r rs ih =>
    rw [List.cons_append, listEach_cons, listEach_cons, ih]
    exact (String.append_assoc).symm

namespace Walks

variable {rs rs' all all' : List Ref}

theorem append (w : Walks h rs all) (w' : Walks h rs' all') : Walks h (rs ++ rs') (all ++ all') := by
  induction w with
  | done => exact w'
  | next found deep _ _ ih =>
    rw [List.cons_append, List.cons_append, List.append_assoc]
    exact .next found deep ih

theorem unique (w : Walks h rs all) (w' : Walks h rs all') : all = all' := by
  induction w generalizing all' with
  | done =>
    cases w'
    rfl
  | next found _ _ deep wide =>
    cases w' with
    | next found' deep' wide' =>
      cases found.symm.trans found'
      rw [deep deep', wide wide']

/-- Each function of a walk is where the walk starts or in the pool of one function of the walk. -/
theorem perm (w : Walks h rs all) : all.Perm (rs ++ all.flatMap h.nested) := by
  induction w with
  | done => exact .refl _
  | @next r f rs inner rest found _ _ deep wide =>
    rw [List.perm_iff_count] at deep wide ⊢
    intro x
    have deep := deep x
    have wide := wide x
    simp only [List.flatMap_cons, List.flatMap_append, List.count_append, List.cons_append,
      List.count_cons, nested_eq found] at deep wide ⊢
    omega

/-- The text of a listing with enough levels, where functions in a pool come before the function
that has it. -/
theorem listUpTo (w : Walks h rs all) (older : ∀ r ∈ all, ∀ n ∈ h.nested r, n.index < r.index)
    {levels : Nat} (enough : ∀ r ∈ rs, r.index < levels) :
    String.join (rs.map fun r => "\n" ++ h.listUpTo levels r) = h.listEach all := by
  induction w generalizing levels with
  | done => rfl
  | @next r f rs inner rest found _ _ deep wide =>
    have inside : ∀ n ∈ h.nestedFunctions f.chunk, n.index < r.index := by
      rw [← nested_eq found]
      exact older r List.mem_cons_self
    obtain ⟨levels, rfl⟩ : ∃ n, levels = n + 1 :=
      ⟨levels - 1, by have := enough r List.mem_cons_self; omega⟩
    have lower : r.index < levels + 1 := enough r List.mem_cons_self
    rw [List.map_cons, String.join_cons, listEach_cons, listEach_append, Heap.listUpTo, found,
      wide (fun n hn => older n (by simp [hn])) fun n hn => enough n (List.mem_cons_of_mem _ hn)]
    have below := @deep (fun n hn => older n (by simp [hn])) levels fun n hn =>
      Nat.lt_of_lt_of_le (inside n hn) (Nat.le_of_lt_succ lower)
    simp only [below, listAlone, found, String.append_assoc]

/-- The listing of one function. -/
theorem listFunction (w : Walks h [r] (r :: all))
    (older : ∀ r' ∈ r :: all, ∀ n ∈ h.nested r', n.index < r'.index) :
    h.listFunction r = h.listAlone r ++ h.listEach all := by
  have inside : r.index < h.size := by
    cases w with
    | next found => exact (Array.getElem?_eq_some_iff.1 (function?_eq_some.1 found)).1
  have enough : ∀ r' ∈ [r], r'.index < h.size := by simpa using inside
  have text := w.listUpTo older enough
  rw [List.map_cons, List.map_nil, String.join_cons, String.join_nil, String.append_empty,
    listEach_cons, String.append_assoc] at text
  exact (String.append_right_inj _).1 text

/-- If a walk from one function comes to no function twice, each of the others has exactly one
place in exactly one of the pools. -/
theorem once (w : Walks h [r] (r :: all)) (distinct : (r :: all).Nodup) {n : Ref} (hn : n ∈ all)
    (known : (h.function? n).isSome) : ∃! p : Ref × Nat, p.1 ∈ r :: all ∧ h.HasAt p n := by
  have same : all.Perm ((r :: all).flatMap h.nested) := (List.perm_cons r).1 w.perm
  obtain ⟨each, apart⟩ := List.nodup_flatMap.1 (same.nodup_iff.1 (List.nodup_cons.1 distinct).2)
  have place {o : Ref} : n ∈ h.nested o ↔ ∃ i, h.HasAt (o, i) n := by
    unfold nested
    cases hf : h.function? o with
    | none => simp [HasAt, hf]
    | some f => simp [HasAt, hf, mem_nestedFunctions, known, Array.mem_iff_getElem?]
  obtain ⟨o, ho, inside⟩ := List.mem_flatMap.1 (same.mem_iff.1 hn)
  obtain ⟨i, hi⟩ := place.1 inside
  refine ⟨(o, i), ⟨ho, hi⟩, ?_⟩
  rintro ⟨o', j⟩ ⟨ho', hj⟩
  obtain rfl : o' = o := by
    by_contra ne
    have symm : Std.Symm (Function.onFun List.Disjoint h.nested) := ⟨fun _ _ d _ a b => d b a⟩
    exact apart.forall ho' ho ne (place.2 ⟨j, hj⟩) inside
  rw [HasAt.unique known (each o' ho) hj hi]

end Walks
end Heap
end StackScript
