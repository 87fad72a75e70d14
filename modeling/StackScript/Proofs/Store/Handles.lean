import StackScript.Proofs.Store.Canonical

/-!
# StackScript.Proofs.Store.Handles

Handles are positions in 32 bits, so objects have different handles as long as there are no more than
`2 ^ 32` of them.

* `Ledger`: a heap with the handles it returned for its objects; `Ledger.Genuine`: one that was written
  from the start.
* `Ledger.Fresh`: no request is answered by the handle of another object than the one it is about.
* `fresh_iff`: that is so exactly until the handles run out. In any case the handles of two objects are
  equal exactly if their positions differ by a multiple of `2 ^ 32`.
-/

namespace StackScript

theorem Ref.ofIndex_eq_iff {i j : Nat} :
    Ref.ofIndex i = Ref.ofIndex j ↔ i % UInt32.size = j % UInt32.size := by
  rw [ofIndex, ofIndex, Ref.mk.injEq, ← UInt32.toNat_inj]
  exact Iff.rfl

theorem Ref.ofIndex_index (r : Ref) : Ref.ofIndex r.index = r :=
  Ref.index_inj (Heap.index_ofIndex r.id.toNat_lt)

namespace Heap

/-- What is asked of a heap. -/
inductive Request where
  | allocate (o : Object)
  | intern (text : String)

namespace Request

/-- What is at the handle that answers a request. -/
def object : Request → Object
  | .allocate o => o
  | .intern text => .string text

def serve (h : Heap) : Request → Heap × Ref
  | .allocate o => h.allocate o
  | .intern text => h.intern text

/-- A request is answered by a new object behind all others, or by one that is there. -/
theorem serve_cases (h : Heap) (q : Request) :
    ((q.serve h).1.objects = h.objects.push q.object ∧ (q.serve h).2 = .ofIndex h.size) ∨
      ((q.serve h).1 = h ∧ h.get? (q.serve h).2 = some q.object) := by
  cases q with
  | allocate o => exact .inl ⟨rfl, rfl⟩
  | intern text =>
    simp only [serve]
    cases found : h.findString? text with
    | none =>
      rw [intern_of_absent found]
      exact .inl ⟨rfl, rfl⟩
    | some r =>
      rw [Heap.intern, found]
      exact .inr ⟨rfl, string?_eq_some.1 (string?_of_findString? found)⟩

end Request

/-- A heap with the handles it returned for its objects, in the order of their allocation. -/
structure Ledger where
  heap : Heap
  refs : List Ref

namespace Ledger

def empty : Ledger := ⟨.empty, []⟩

/-- The handle that answers a request is written down if the object is new. -/
def serve (l : Ledger) (q : Request) : Ledger :=
  let (heap, r) := q.serve l.heap
  ⟨heap, if l.heap.size < heap.size then l.refs ++ [r] else l.refs⟩

def serveAll (l : Ledger) (qs : List Request) : Ledger := qs.foldl serve l

/-- A ledger that has been kept since the heap was empty. Objects may have been replaced meanwhile, and
all of them released. -/
inductive Genuine : Ledger → Prop where
  | empty : Genuine .empty
  | serve {l : Ledger} (q : Request) : Genuine l → Genuine (l.serve q)
  | set {l : Ledger} (r : Ref) (o : Object) : Genuine l → Genuine ⟨l.heap.set r o, l.refs⟩
  | setElement {l : Ledger} (r : Ref) (i : Nat) (v : Value) :
    Genuine l → Genuine ⟨l.heap.setElement r i v, l.refs⟩
  | clear {l : Ledger} : Genuine l → Genuine ⟨l.heap.clear, []⟩

/-- Handles are fresh while requests are served. An object is told by its position. -/
structure Fresh (l : Ledger) (qs : List Request) : Prop where
  /-- Every object has a handle. -/
  complete : (l.serveAll qs).refs.length = (l.serveAll qs).heap.size
  /-- A new object gets a handle that no object before it has got, and is found there. -/
  allocated : ∀ {before after : List Request} {o : Object}, qs = before ++ .allocate o :: after →
    ((l.serveAll before).heap.allocate o).2 ∉ (l.serveAll before).refs ∧
      ((l.serveAll before).heap.allocate o).1.get? ((l.serveAll before).heap.allocate o).2 = some o
  /-- Every request is answered by the handle of an object that is what was asked for. -/
  answered : ∀ {before after : List Request} {q : Request}, qs = before ++ q :: after →
    ∃ i : Nat, (l.serveAll (before ++ [q])).refs[i]? = some (q.serve (l.serveAll before).heap).2 ∧
      (l.serveAll (before ++ [q])).heap.objects[i]? = some q.object
  /-- Handles yield their objects from then on. -/
  kept : ∀ {before after : List Request}, qs = before ++ after → ∀ {i : Nat} {r : Ref} {o : Object},
    (l.serveAll before).refs[i]? = some r → (l.serveAll before).heap.objects[i]? = some o →
      (l.serveAll qs).heap.get? r = some o
  /-- Two handles are equal exactly if they are those of one object. -/
  same_iff : ∀ {i j : Nat} {r s : Ref}, (l.serveAll qs).refs[i]? = some r →
    (l.serveAll qs).refs[j]? = some s → (r = s ↔ i = j)

section Numbered

/-- The handle of an object is its position, as far as it fits. -/
def Numbered (l : Ledger) : Prop := l.refs = (List.range l.heap.size).map Ref.ofIndex

variable {l : Ledger}

theorem Numbered.of_size (n : l.Numbered) {heap : Heap} (size : heap.size = l.heap.size) :
    Numbered ⟨heap, l.refs⟩ := by
  rw [Numbered, size]
  exact n

theorem Numbered.serve (n : l.Numbered) (q : Request) : (l.serve q).Numbered := by
  unfold Ledger.serve Numbered
  obtain ⟨objects, r⟩ | ⟨heap, -⟩ := q.serve_cases l.heap
  · have size : (q.serve l.heap).1.size = l.heap.size + 1 := by
      rw [Heap.size, objects, Array.size_push, Heap.size]
    simp only [size, Nat.lt_succ_self, if_true, r]
    rw [n, List.range_succ, List.map_append, List.map_singleton]
  · simp only [heap, Nat.lt_irrefl, if_false]
    exact n

theorem Numbered.serveAll (n : l.Numbered) (qs : List Request) : (l.serveAll qs).Numbered := by
  induction qs generalizing l with
  | nil => exact n
  | cons q qs ih => exact ih (n.serve q)

theorem Genuine.numbered (g : l.Genuine) : l.Numbered := by
  induction g with
  | empty => rfl
  | serve q _ ih => exact ih.serve q
  | set r o _ ih => exact ih.of_size (size_set ..)
  | setElement r i v _ ih => exact ih.of_size (size_setElement ..)
  | @clear l _ _ =>
    have none : l.heap.clear.size = 0 := by
      unfold Heap.clear
      split
      next none => simpa [Heap.size] using none
      next => rfl
    rw [Numbered, none]
    rfl

namespace Numbered

theorem getElem?_eq_some (n : l.Numbered) {i : Nat} {r : Ref} :
    l.refs[i]? = some r ↔ i < l.heap.size ∧ Ref.ofIndex i = r := by
  rw [n, List.getElem?_map, Option.map_eq_some_iff]
  constructor
  · rintro ⟨j, hj, rfl⟩
    obtain ⟨lt, rfl⟩ := List.getElem?_eq_some_iff.1 hj
    rw [List.getElem_range]
    exact ⟨by simpa using lt, rfl⟩
  · rintro ⟨lt, rfl⟩
    exact ⟨i, List.getElem?_range lt, rfl⟩

/-- Handles are equal exactly if the positions of their objects are, up to multiples of `2 ^ 32`. -/
theorem eq_iff_mod (n : l.Numbered) {i j : Nat} {r s : Ref} (hi : l.refs[i]? = some r)
    (hj : l.refs[j]? = some s) : r = s ↔ i % UInt32.size = j % UInt32.size := by
  obtain ⟨-, rfl⟩ := n.getElem?_eq_some.1 hi
  obtain ⟨-, rfl⟩ := n.getElem?_eq_some.1 hj
  exact Ref.ofIndex_eq_iff

theorem eq_iff (n : l.Numbered) (fits : l.heap.size ≤ UInt32.size) {i j : Nat} {r s : Ref}
    (hi : l.refs[i]? = some r) (hj : l.refs[j]? = some s) : r = s ↔ i = j := by
  have small {k : Nat} {t : Ref} (hk : l.refs[k]? = some t) : k % UInt32.size = k :=
    Nat.mod_eq_of_lt (Nat.lt_of_lt_of_le (n.getElem?_eq_some.1 hk).1 fits)
  rw [n.eq_iff_mod hi hj, small hi, small hj]

/-- The object behind all handles has the handle of the first one. -/
theorem fits_of_eq_iff (n : l.Numbered) (same : ∀ {i j : Nat} {r s : Ref}, l.refs[i]? = some r →
    l.refs[j]? = some s → (r = s ↔ i = j)) : l.heap.size ≤ UInt32.size := by
  refine Nat.le_of_not_lt fun many => ?_
  have first := n.getElem?_eq_some.2 ⟨Nat.zero_lt_of_lt many, rfl⟩
  have again := n.getElem?_eq_some.2 ⟨many, rfl⟩
  have equal : 0 = UInt32.size := (same first again).1 ((n.eq_iff_mod first again).2 (by simp))
  exact absurd equal (by decide)

theorem get?_eq (n : l.Numbered) (fits : l.heap.size ≤ UInt32.size) {i : Nat} {r : Ref}
    (hi : l.refs[i]? = some r) : l.heap.get? r = l.heap.objects[i]? := by
  obtain ⟨lt, rfl⟩ := n.getElem?_eq_some.1 hi
  rw [get?, index_ofIndex (Nat.lt_of_lt_of_le lt fits)]

/-- The handle of the next object is new. -/
theorem next_notMem (n : l.Numbered) (room : l.heap.size < UInt32.size) :
    Ref.ofIndex l.heap.size ∉ l.refs := by
  intro mem
  obtain ⟨i, hi⟩ := List.mem_iff_getElem?.1 mem
  obtain ⟨lt, same⟩ := n.getElem?_eq_some.1 hi
  rw [Ref.ofIndex_eq_iff, Nat.mod_eq_of_lt room, Nat.mod_eq_of_lt (Nat.lt_trans lt room)] at same
  omega

end Numbered

theorem within_serve (l : Ledger) (q : Request) : Within l.heap.objects (l.serve q).heap.objects := by
  have heap : (l.serve q).heap = (q.serve l.heap).1 := rfl
  rw [heap]
  obtain ⟨objects, -⟩ | ⟨same, -⟩ := q.serve_cases l.heap
  · rw [objects]
    exact .push _ _
  · rw [same]
    exact .refl _

theorem within_serveAll (l : Ledger) (qs : List Request) :
    Within l.heap.objects (l.serveAll qs).heap.objects := by
  induction qs generalizing l with
  | nil => exact .refl _
  | cons q qs ih => exact (l.within_serve q).trans (ih _)

theorem serveAll_append (l : Ledger) (qs qs' : List Request) :
    l.serveAll (qs ++ qs') = (l.serveAll qs).serveAll qs' :=
  List.foldl_append

/-- The handle that answers a request is that of an object that is what was asked for. -/
theorem Numbered.answered (n : l.Numbered) (q : Request) : ∃ i : Nat,
    (l.serve q).refs[i]? = some (q.serve l.heap).2 ∧
      (l.serve q).heap.objects[i]? = some q.object := by
  have heap : (l.serve q).heap = (q.serve l.heap).1 := rfl
  obtain ⟨objects, r⟩ | ⟨same, found⟩ := q.serve_cases l.heap
  · refine ⟨l.heap.size, (n.serve q).getElem?_eq_some.2 ⟨?_, r.symm⟩, ?_⟩
    · rw [heap, Heap.size, Heap.size, objects, Array.size_push]
      exact Nat.lt_succ_self _
    · rw [heap, objects]
      exact Array.getElem?_push_size
  · refine ⟨(q.serve l.heap).2.index, (n.serve q).getElem?_eq_some.2 ⟨?_, Ref.ofIndex_index _⟩, ?_⟩
    · rw [heap, same]
      exact (Array.getElem?_eq_some_iff.1 found).1
    · rw [heap, same]
      exact found

theorem Numbered.fresh (n : l.Numbered) {qs : List Request}
    (fits : (l.serveAll qs).heap.size ≤ UInt32.size) : l.Fresh qs where
  complete := by simpa using congrArg List.length (n.serveAll qs)
  allocated := by
    rintro before after o rfl
    have larger : ((l.serveAll before).heap.allocate o).1.size ≤ UInt32.size := by
      rw [serveAll_append] at fits
      have onward := ((l.serveAll before).serve (.allocate o)).within_serveAll after
      exact Nat.le_trans onward.size_le fits
    have room : (l.serveAll before).heap.size < UInt32.size := by
      rwa [size_allocate, Nat.succ_le_iff] at larger
    exact ⟨(n.serveAll before).next_notMem room, get?_allocate room⟩
  answered := by
    rintro before after q rfl
    rw [serveAll_append]
    exact (n.serveAll before).answered q
  kept := by
    rintro before after rfl i r o hr ho
    rw [serveAll_append] at fits ⊢
    have later := (l.serveAll before).within_serveAll after
    have found := (n.serveAll before).get?_eq (Nat.le_trans later.size_le fits) hr
    exact Extends.get? later (found.trans ho)
  same_iff := (n.serveAll qs).eq_iff fits

end Numbered

/-- Handles are fresh exactly as long as there are no more objects than handles. Whether or not there
are, the handles of two objects are equal exactly if their positions differ by a multiple of
`2 ^ 32`. -/
theorem fresh_iff {l : Ledger} (g : l.Genuine) (qs : List Request) :
    (l.Fresh qs ↔ (l.serveAll qs).heap.size ≤ UInt32.size) ∧
    ∀ {i j : Nat} {r s : Ref}, (l.serveAll qs).refs[i]? = some r → (l.serveAll qs).refs[j]? = some s →
      (r = s ↔ i % UInt32.size = j % UInt32.size) := by
  have n := g.numbered
  exact ⟨⟨fun fresh => (n.serveAll qs).fits_of_eq_iff fresh.same_iff, n.fresh⟩,
    (n.serveAll qs).eq_iff_mod⟩

/-- A string that is released, and then two arrays with the same elements, a string and again that
string. -/
theorem fresh_iff_released :
    let l : Ledger := ⟨(Ledger.empty.serve (.intern "a")).heap.clear, []⟩
    let qs : List Request := [.allocate (.array #[.nil]), .intern "a", .allocate (.array #[.nil]),
      .intern "a"]
    l.Genuine ∧ l.Fresh qs ∧ (l.serveAll qs).heap.size = 3 ∧ (l.serveAll qs).refs.length = 3 := by
  intro l qs
  have g : l.Genuine := .clear (.serve (.intern "a") .empty)
  have size : (l.serveAll qs).heap.size = 3 := by decide +kernel
  have fresh : l.Fresh qs := (fresh_iff g qs).1.2 (by rw [size]; decide)
  exact ⟨g, fresh, size, fresh.complete.trans size⟩

theorem serveAll_replicate (n : Nat) (o : Object) :
    (Ledger.empty.serveAll (List.replicate n (.allocate o))).heap =
      ⟨Array.replicate n o, .empty⟩ := by
  induction n with
  | zero => rfl
  | succ n ih =>
    rw [List.replicate_succ', serveAll_append, Array.replicate_succ]
    generalize Ledger.empty.serveAll (List.replicate n (.allocate o)) = l at ih
    have heap : (l.serveAll [.allocate o]).heap = (l.heap.allocate o).1 := rfl
    rw [heap, ih]
    rfl

/-- The object behind `2 ^ 32` others has the handle of the first one, and the first one is what is found
there. -/
theorem Numbered.taken_twice {l : Ledger} (n : l.Numbered) (full : l.heap.size = UInt32.size)
    {first : Object} (h : l.heap.objects[0]? = some first) (o : Object) :
    (l.heap.allocate o).2 ∈ l.refs ∧
      (l.heap.allocate o).1.get? (l.heap.allocate o).2 = some first := by
  have next : (l.heap.allocate o).2 = .ofIndex 0 := by
    refine (congrArg Ref.ofIndex full).trans (Ref.ofIndex_eq_iff.2 ?_)
    rw [Nat.mod_self, Nat.zero_mod]
  have positive : 0 < l.heap.size := full ▸ by decide
  rw [next]
  exact ⟨List.mem_of_getElem? (n.getElem?_eq_some.2 ⟨positive, rfl⟩),
    (l.heap.extends_allocate o).get? h⟩

/-- `2 ^ 32` arrays, and another one. -/
theorem allocate_not_fresh :
    ¬Ledger.empty.Fresh (List.replicate UInt32.size (.allocate (.array #[])) ++
      [.allocate (.array #[.nil])]) := by
  intro fresh
  have heap := serveAll_replicate UInt32.size (.array #[])
  have numbered := Genuine.empty.numbered.serveAll
    (List.replicate UInt32.size (.allocate (.array #[])))
  have unused := (fresh.allocated rfl).1
  generalize Ledger.empty.serveAll _ = l at heap numbered unused
  have full : l.heap.size = UInt32.size := by
    rw [heap]
    exact Array.size_replicate
  have first : l.heap.objects[0]? = some (.array #[]) := by
    rw [heap, Array.getElem?_replicate]
    exact if_pos (by decide)
  exact unused (numbered.taken_twice full first _).1

end Ledger
end Heap
end StackScript
