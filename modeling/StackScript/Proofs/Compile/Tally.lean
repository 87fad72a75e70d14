import StackScript.Proofs.Compile.Scope
import StackScript.Proofs.Store.Intern
import StackScript.Proofs.Syntax.Static

/-!
# StackScript.Proofs.Compile.Tally

The pools and the captures of the functions around a place are what the code in front of the place
needs.

* `tally`: the needs of some code, counted for the function it is in and for those around it.
* `Stands`, `Traces`: the constant and the capture that serve a need.
* `Tracked`: each function has one constant and one capture for each of its needs.
-/

namespace StackScript
namespace Syntax
namespace Need

theorem distinct_concat (ns : List Need) (n : Need) :
    distinct (ns ++ [n]) =
      if (distinct ns).any (same · n) then distinct ns else distinct ns ++ [n] := by
  rw [distinct, List.foldl_append]
  rfl

theorem length_distinct_le (ns ms : List Need) :
    (distinct ns).length ≤ (distinct (ns ++ ms)).length := by
  induction ms generalizing ns with
  | nil => exact Nat.le_of_eq (by rw [List.append_nil])
  | cons m ms ih =>
    have more := ih (ns ++ [m])
    rw [List.append_assoc, List.singleton_append] at more
    refine Nat.le_trans ?_ more
    rw [distinct_concat]
    split
    · exact Nat.le_refl _
    · rw [List.length_append]
      exact Nat.le_add_right _ _

theorem outward_append (ns ms : List Need) : outward (ns ++ ms) = outward ns ++ outward ms :=
  List.filterMap_append

theorem Modest.front {ns ms : List Need} (h : Modest (ns ++ ms)) : Modest ns := by
  refine ⟨Nat.le_trans ?_ h.1, Nat.le_trans ?_ h.2⟩
  · rw [constants, constants, List.filter_append]
    exact length_distinct_le _ _
  · rw [upvalues, upvalues, outward_append]
    exact length_distinct_le _ _

end Need
end Syntax

namespace Compile

open Syntax Instruction

/-- The needs of the functions around a place, innermost first, behind more code of the innermost
one. -/
def tally : List Need → List (List Need) → List (List Need)
  | _, [] => []
  | ns, needs :: outer => (needs ++ ns) :: tally (Need.outward ns) outer

theorem tally_tally (outer : List (List Need)) : ∀ ns ms : List Need,
    tally ms (tally ns outer) = tally (ns ++ ms) outer := by
  induction outer with
  | nil => exact fun _ _ => rfl
  | cons needs outer ih =>
    intro ns ms
    simp only [tally, ih, Need.outward_append, List.append_assoc]

theorem tally_nil (outer : List (List Need)) : tally [] outer = outer := by
  induction outer with
  | nil => rfl
  | cons needs outer ih => rw [tally, Need.outward, List.filterMap_nil, ih, List.append_nil]

/-- Every function keeps to the limits of its pool and its captures. -/
def Roomy (needs : List (List Need)) : Prop := ∀ ns ∈ needs, Need.Modest ns

theorem Roomy.of_tally {needs : List (List Need)} : ∀ {ns : List Need},
    Roomy (tally ns needs) → Roomy needs := by
  induction needs with
  | nil => exact fun h => h
  | cons n needs ih =>
    intro ns h m hm
    obtain rfl | hm := List.mem_cons.1 hm
    · exact (h _ List.mem_cons_self).front
    · exact ih (fun m hm => h m (List.mem_cons_of_mem _ hm)) m hm

theorem Roomy.front {needs : List (List Need)} {ns ms : List Need}
    (h : Roomy (tally (ns ++ ms) needs)) : Roomy (tally ns needs) := by
  rw [← tally_tally] at h
  exact h.of_tally

section Served

variable {β : Type} {R : Need → β → Prop} {ns : List Need} {n : Need} {xs : Array β} {v : β}

/-- There is one entry for each of some needs, in the order in which they came up. -/
def Served {β : Type} (R : Need → β → Prop) (ns : List Need) (xs : Array β) : Prop :=
  List.Forall₂ R (Need.distinct ns) xs.toList

theorem Served.size (h : Served R ns xs) : xs.size = (Need.distinct ns).length :=
  h.length_eq.symm

variable [BEq β]

/-- What is found among the served needs is found among what serves them. -/
theorem Served.isSome_findIdx? (h : Served R ns xs)
    (hv : ∀ m w, R m w → (w == v) = m.same n) :
    (xs.findIdx? (· == v)).isSome = (Need.distinct ns).any (Need.same · n) := by
  have all : ∀ {ms : List Need} {ys : List β}, List.Forall₂ R ms ys →
      ys.any (· == v) = ms.any (Need.same · n) := by
    intro ms ys h
    induction h with
    | nil => rfl
    | cons r _ ih => rw [List.any_cons, List.any_cons, hv _ _ r, ih]
  rw [Array.findIdx?_isSome, ← Array.any_toList]
  exact all h

/-- An entry that is there already. -/
theorem Served.found (h : Served R ns xs) (hv : ∀ m w, R m w → (w == v) = m.same n) {i : Nat}
    (hi : xs.findIdx? (· == v) = some i) : Served R (ns ++ [n]) xs := by
  have found := h.isSome_findIdx? hv
  rw [hi] at found
  rwa [Served, Need.distinct_concat, if_pos (by simpa using found.symm)]

/-- An entry for a need that comes up for the first time. -/
theorem Served.push {R' : Need → β → Prop} (h : Served R ns xs)
    (hv : ∀ m w, R m w → (w == v) = m.same n) (later : ∀ m w, R m w → R' m w) (new : R' n v)
    (hn : xs.findIdx? (· == v) = none) : Served R' (ns ++ [n]) (xs.push v) := by
  have found := h.isSome_findIdx? hv
  rw [hn] at found
  rw [Served, Need.distinct_concat, if_neg (by rw [← found]; simp), Array.toList_push]
  exact List.rel_append (h.imp later) (.cons new .nil)

/-- There is room for one more need, or an entry for it. -/
theorem Served.room (h : Served R ns xs) (hv : ∀ m w, R m w → (w == v) = m.same n)
    (fits : (Need.distinct (ns ++ [n])).length ≤ 256) :
    (∀ i, xs.findIdx? (· == v) = some i → i < 256) ∧
      (xs.findIdx? (· == v) = none → xs.size < 256) := by
  have found := h.isSome_findIdx? hv
  constructor
  · intro i hi
    have : i < xs.size := (Array.findIdx?_eq_some_iff_getElem.1 hi).1
    rw [h.size] at this
    exact Nat.lt_of_lt_of_le this (Nat.le_trans (Need.length_distinct_le ns [n]) fits)
  · intro hn
    rw [hn] at found
    rw [Need.distinct_concat, if_neg (by rw [← found]; simp), List.length_append] at fits
    rw [h.size]
    exact fits

end Served

/-- A constant for a need. -/
def Stands (h : Heap) : Need → Value → Prop
  | .text text, v => ∃ r, v = .object r ∧ h.string? r = some text
  | .number x, v => v = .number x
  | .function, v => ∃ r f, v = .object r ∧ h.function? r = some f
  | .variable _ _, _ => False

namespace Stands

variable {h h' H : Heap} {m n : Need} {v w : Value}

theorem mono (ext : h.Extends h') (hv : Stands h n v) : Stands h' n v := by
  cases n with
  | text =>
    obtain ⟨r, e, hr⟩ := hv
    exact ⟨r, e, ext.string? hr⟩
  | number => exact hv
  | function =>
    obtain ⟨r, f, e, hr⟩ := hv
    exact ⟨r, f, e, ext.function? hr⟩
  | «variable» => exact hv

theorem not_both {r : Ref} {text : String} {f : Function} (hs : h.string? r = some text)
    (hf : h.function? r = some f) : False := by
  have := (Heap.string?_eq_some.1 hs).symm.trans (Heap.function?_eq_some.1 hf)
  cases this

/-- Texts and numbers are equal if their constants are. -/
theorem beq (hs : H.Sound) (ext : h.Extends H) (hw : Stands h m w) (hv : Stands h n v)
    (hn : n ≠ .function) : (w == v) = m.same n := by
  cases n with
  | text text =>
    obtain ⟨r, rfl, hr⟩ := hv
    cases m with
    | text text' =>
      obtain ⟨r', rfl, hr'⟩ := hw
      have same : r' = r ↔ text' = text := by
        constructor
        · rintro rfl
          exact Option.some.inj (hr'.symm.trans hr)
        · rintro rfl
          exact hs.once (ext.string? hr') (ext.string? hr)
      have equal : (Value.object r' == Value.object r) = (r' == r) := rfl
      rw [equal, Need.same]
      by_cases e : r' = r
      · simp [e, same.1 e]
      · have := mt same.2 e
        simp [e, this]
    | number x =>
      cases hw
      rfl
    | function =>
      obtain ⟨r', f, rfl, hf⟩ := hw
      have ne : r' ≠ r := by
        rintro rfl
        exact not_both hr hf
      have equal : (Value.object r' == Value.object r) = (r' == r) := rfl
      rw [equal]
      simpa [Need.same] using ne
    | «variable» => cases hw
  | number x =>
    cases hv
    cases m with
    | text =>
      obtain ⟨r', rfl, -⟩ := hw
      rfl
    | number =>
      cases hw
      rfl
    | function =>
      obtain ⟨r', f, rfl, -⟩ := hw
      rfl
    | «variable» => cases hw
  | function => exact absurd rfl hn
  | «variable» => cases hv

/-- A new function is no constant yet. -/
theorem beq_fresh {r : Ref} (hr : h.get? r = none) (hw : Stands h m w) :
    (w == .object r) = m.same .function := by
  have known {r' : Ref} {o : Object} (ho : h.get? r' = some o) : (r' == r) = false := by
    refine beq_eq_false_iff_ne.2 ?_
    rintro rfl
    rw [hr] at ho
    cases ho
  cases m with
  | text =>
    obtain ⟨r', rfl, hr'⟩ := hw
    exact known (Heap.string?_eq_some.1 hr')
  | number =>
    cases hw
    rfl
  | function =>
    obtain ⟨r', f, rfl, hf⟩ := hw
    exact known (Heap.function?_eq_some.1 hf)
  | «variable» => cases hw

end Stands

/-- A capture for a need of the function around, given the captures from there outward. -/
def Traces (outer : List (Array Capture)) : Need → Capture → Prop
  | .variable 0 slot, c => ∃ i : UInt8, i.toNat = slot ∧ c = ⟨true, i⟩
  | .variable (levels + 1) slot, c => ∃ j, c = ⟨false, j⟩ ∧ follow outer j = some (levels + 1, slot)
  | _, _ => False

theorem follow_pos {chain : List (Array Capture)} {i : UInt8} {levels slot : Nat}
    (h : follow chain i = some (levels, slot)) : 0 < levels := by
  cases chain with
  | nil => cases h
  | cons captures outer =>
    unfold follow at h
    split at h
    next => cases h
    next =>
      cases h
      exact Nat.one_pos
    next =>
      obtain ⟨_, _, e⟩ := Option.map_eq_some_iff.1 h
      cases e
      exact Nat.succ_pos _

/-- No two upvalues lead to the same slot. -/
theorem follow_inj {chain : List (Array Capture)} : ∀ {i j : UInt8} {levels slot : Nat},
    (∀ captures ∈ chain, captures.toList.Nodup) → follow chain i = some (levels, slot) →
    follow chain j = some (levels, slot) → i = j := by
  induction chain with
  | nil => exact fun _ h => by cases h
  | cons captures outer ih =>
    intro i j levels slot distinct hi hj
    have same {c : Capture} (ci : captures[i.toNat]? = some c) (cj : captures[j.toNat]? = some c) :
        i = j := by
      refine UInt8.toNat_inj.1 ((List.getElem?_inj ?_ (distinct captures List.mem_cons_self)).1 ?_)
      · simpa using (Array.getElem?_eq_some_iff.1 ci).1
      · rw [Array.getElem?_toList, Array.getElem?_toList, ci, cj]
    -- a slot of the next function is not one further out
    have apart {k : UInt8} {s s' : Nat} (h : (follow outer k).map (fun p => (p.1 + 1, p.2)) =
        some (levels, s)) (h' : some (1, s') = some (levels, s)) : False := by
      obtain ⟨⟨l, _⟩, hk, e⟩ := Option.map_eq_some_iff.1 h
      have := follow_pos hk
      have e := (Prod.mk.inj e).1
      have e' := (Prod.mk.inj (Option.some.inj h')).1
      omega
    unfold follow at hi hj
    split at hi
    next => cases hi
    next i' ci =>
      split at hj
      next => cases hj
      next j' cj =>
        have e := (Option.some.inj hi).trans (Option.some.inj hj).symm
        exact same ci (UInt8.toNat_inj.1 (Prod.mk.inj e).2 ▸ cj)
      next => exact (apart hj hi).elim
    next k ci =>
      split at hj
      next => cases hj
      next => exact (apart hi hj).elim
      next k' cj =>
        obtain ⟨⟨l, s⟩, hk, e⟩ := Option.map_eq_some_iff.1 hi
        obtain ⟨⟨l', s'⟩, hk', e'⟩ := Option.map_eq_some_iff.1 hj
        cases e
        cases e'
        have inner := ih (fun c hc => distinct c (List.mem_cons_of_mem _ hc)) hk hk'
        exact same ci (inner ▸ cj)

namespace Traces

variable {outer outer' : List (Array Capture)} {m n : Need} {c d : Capture}

theorem mono (h : List.Forall₂ Within outer outer') (ht : Traces outer n c) :
    Traces outer' n c := by
  cases n with
  | «variable» levels slot =>
    cases levels with
    | zero => exact ht
    | succ levels =>
      obtain ⟨j, rfl, hj⟩ := ht
      exact ⟨j, rfl, follow_within h hj⟩
  | _ => cases ht

theorem beq (distinct : ∀ captures ∈ outer, captures.toList.Nodup) (hm : Traces outer m c)
    (hn : Traces outer n d) : (c == d) = m.same n := by
  cases m with
  | «variable» l s =>
    cases n with
    | «variable» l' s' =>
      cases l with
      | zero =>
        obtain ⟨i, rfl, rfl⟩ := hm
        cases l' with
        | zero =>
          obtain ⟨i', rfl, rfl⟩ := hn
          by_cases e : i = i'
          · simp [Need.same, e]
          · have : i.toNat ≠ i'.toNat := fun h => e (UInt8.toNat_inj.1 h)
            simp [Need.same, e, this]
        | succ l' =>
          obtain ⟨j, rfl, -⟩ := hn
          simp [Need.same]
      | succ l =>
        obtain ⟨j, rfl, hj⟩ := hm
        cases l' with
        | zero =>
          obtain ⟨i', rfl, rfl⟩ := hn
          simp [Need.same]
        | succ l' =>
          obtain ⟨j', rfl, hj'⟩ := hn
          by_cases e : j = j'
          · subst e
            cases hj.symm.trans hj'
            simp [Need.same]
          · have : ¬(l = l' ∧ s = s') := by
              rintro ⟨rfl, rfl⟩
              exact e (follow_inj distinct hj hj')
            have : ¬(l + 1 = l' + 1 ∧ s = s') := by simpa using this
            simp only [Need.same, ← Bool.decide_and, beq_eq_decide, this, decide_false]
            simpa using e
    | _ => cases hn
  | _ => cases hm

end Traces

/-- Pools and captures are what the functions need. -/
def Tracked (h : Heap) : List Draft → List (List Need) → Prop
  | [], [] => True
  | d :: ds, ns :: needs =>
    Served (Stands h) (ns.filter Need.isConstant) d.chunk.constants ∧
      Served (Traces (ds.map Draft.captures)) (Need.outward ns) d.captures ∧ Tracked h ds needs
  | _, _ => False

theorem Tracked.mono {h h' : Heap} (ext : h.Extends h') {ds : List Draft} :
    ∀ {needs : List (List Need)}, Tracked h ds needs → Tracked h' ds needs := by
  induction ds with
  | nil => exact fun {needs} t => by cases needs <;> exact t
  | cons d ds ih =>
    intro needs t
    cases needs with
    | nil => exact t
    | cons ns needs =>
      obtain ⟨pool, captures, t⟩ := t
      exact ⟨pool.imp fun _ _ => Stands.mono ext, captures, ih t⟩

theorem tally_constant {n : Need} (hn : n.isConstant = true) (ns : List Need)
    (outer : List (List Need)) :
    tally [n] (ns :: outer) = (ns ++ [n]) :: outer ∧ Need.outward (ns ++ [n]) = Need.outward ns ∧
      (ns ++ [n]).filter Need.isConstant = ns.filter Need.isConstant ++ [n] := by
  have none : Need.outward [n] = [] := by
    cases n with
    | «variable» => cases hn
    | _ => rfl
  refine ⟨by rw [tally, none, tally_nil], by rw [Need.outward_append, none, List.append_nil], ?_⟩
  rw [List.filter_append, List.filter_singleton, hn]
  rfl

section Constants

variable {h h' : Heap} {d : Draft} {ds : List Draft} {ns : List Need} {needs : List (List Need)}
  {n : Need} {v : Value}

/-- A constant finds room in a modest pool. -/
theorem Tracked.constant_room (t : Tracked h (d :: ds) (ns :: needs)) (hn : n.isConstant = true)
    (hv : ∀ m w, Stands h m w → (w == v) = m.same n)
    (roomy : Roomy (tally [n] (ns :: needs))) : ∃ p, d.chunk.addConstant? v = some p := by
  rw [(tally_constant hn ns needs).1] at roomy
  have fits := (roomy _ List.mem_cons_self).1
  rw [Need.constants, (tally_constant hn ns needs).2.2] at fits
  obtain ⟨found, room⟩ := t.1.room hv fits
  unfold Chunk.addConstant?
  split
  next i hi => exact ⟨_, if_pos (found i hi)⟩
  next hi => exact ⟨_, if_pos (room hi)⟩

/-- A constant for a need, which may come up for the first time. -/
theorem Tracked.constant (t : Tracked h (d :: ds) (ns :: needs)) (hn : n.isConstant = true)
    (hv : ∀ m w, Stands h m w → (w == v) = m.same n) (ext : h.Extends h') (new : Stands h' n v)
    {chunk : Chunk} {k : UInt8} (hk : d.chunk.addConstant? v = some (chunk, k)) :
    Tracked h' ({ d with chunk } :: ds) (tally [n] (ns :: needs)) := by
  obtain ⟨e, outward, constants⟩ := tally_constant hn ns needs
  rw [e]
  obtain ⟨pool, captures, t⟩ := t
  refine ⟨?_, outward ▸ captures, t.mono ext⟩
  rw [constants]
  unfold Chunk.addConstant? at hk
  split at hk
  next i hi =>
    split at hk
    next =>
      cases hk
      have found := pool.found hv hi
      exact found.imp fun _ _ => Stands.mono ext
    next => cases hk
  next hi =>
    split at hk
    next =>
      cases hk
      exact pool.push hv (fun _ _ => Stands.mono ext) new hi
    next => cases hk

end Constants

theorem Draft.addCapture_served {outer : List (Array Capture)} {d : Draft} {ms : List Need} {n : Need}
    {c : Capture} (served : Served (Traces outer) ms d.captures)
    (hc : ∀ m w, Traces outer m w → (w == c) = m.same n) (new : Traces outer n c) :
    ((Need.distinct (ms ++ [n])).length ≤ 256 → (d.addCapture c).2.2 = none) ∧
      ((d.addCapture c).2.2 = none → Served (Traces outer) (ms ++ [n]) (d.addCapture c).1.captures) ∧
      (d.addCapture c).1.chunk = d.chunk := by
  unfold addCapture
  cases hi : d.captures.findIdx? (· == c) with
  | some i => exact ⟨fun _ => rfl, fun _ => served.found hc hi, rfl⟩
  | none =>
    dsimp only
    split
    next => exact ⟨fun _ => rfl, fun _ => served.push hc (fun _ _ => id) new hi, rfl⟩
    next full =>
      exact ⟨fun fits => absurd ((served.room hc fits).2 hi) full, nofun, rfl⟩

/-- The names of the locals that can be read. -/
def Draft.names (d : Draft) : List String := (readable d.locals).map Local.name

section Resolve

variable {h : Heap} {name : String}

theorem tracked_captureLocal {o : Draft} {ds : List Draft} {needs : List (List Need)} :
    Tracked h (o.captureLocal name :: ds) needs ↔ Tracked h (o :: ds) needs := by
  cases needs <;> rfl

/-- A variable of a local of the function around needs nothing of that function. -/
theorem Tracked.own {o : Draft} {ds : List Draft} {needs : List (List Need)} {slot : Nat}
    (t : Tracked h (o :: ds) needs) : Tracked h (o :: ds) (tally [.variable 0 slot] needs) := by
  cases needs with
  | nil => exact t
  | cons ns needs =>
    have none : Need.outward [.variable 0 slot] = [] := rfl
    rw [tally, none, tally_nil]
    obtain ⟨pool, captures, t⟩ := t
    refine ⟨?_, ?_, t⟩
    · rw [List.filter_append]
      simpa [Need.isConstant] using pool
    · rw [Need.outward_append, none, List.append_nil]
      exact captures

/-- One more upvalue of a function, which leads to where the function around has the variable. -/
theorem Tracked.capture {d : Draft} {ds ds' : List Draft} {ns : List Need}
    {needs needs' : List (List Need)} {c : Capture} {levels slot : Nat}
    (t : Tracked h (d :: ds) (ns :: needs)) (t' : Tracked h ds' needs')
    (within : List.Forall₂ Within (ds.map Draft.captures) (ds'.map Draft.captures))
    (distinct : ∀ o ∈ ds', o.captures.toList.Nodup)
    (new : Traces (ds'.map Draft.captures) (.variable levels slot) c) :
    ((Need.upvalues (ns ++ [.variable (levels + 1) slot])).length ≤ 256 →
      (d.addCapture c).2.2 = none) ∧
    ((d.addCapture c).2.2 = none →
      Tracked h ((d.addCapture c).1 :: ds') ((ns ++ [.variable (levels + 1) slot]) :: needs')) := by
  obtain ⟨pool, captures, -⟩ := t
  have served : Served (Traces (ds'.map Draft.captures)) (Need.outward ns) d.captures :=
    captures.imp fun _ _ => Traces.mono within
  have outward : Need.outward (ns ++ [.variable (levels + 1) slot]) =
      Need.outward ns ++ [.variable levels slot] := Need.outward_append _ _
  have distinct : ∀ captures ∈ ds'.map Draft.captures, captures.toList.Nodup := by
    intro captures hc
    obtain ⟨o, ho, rfl⟩ := List.mem_map.1 hc
    exact distinct o ho
  obtain ⟨room, grown, chunk⟩ := d.addCapture_served served
    (fun m w hw => Traces.beq distinct hw new) new
  refine ⟨fun fits => room (outward ▸ fits), fun full => ⟨?_, outward ▸ grown full, t'⟩⟩
  rw [chunk, List.filter_append]
  simpa [Need.isConstant] using pool

/-- Looking a variable up in the functions around makes all of them need it. -/
theorem resolveUpvalue_tracked {ds : List Draft} :
    ∀ {d : Draft} {r : Resolution} {ns : List Need} {needs : List (List Need)} {levels slot : Nat},
      resolveUpvalue name d ds = some r → (∀ o ∈ ds, o.Proper) → d.Chained ds →
      lookup name (ds.map Draft.names) = some (levels, slot) → Tracked h (d :: ds) (ns :: needs) →
      (Roomy (tally [.variable (levels + 1) slot] (ns :: needs)) → r.fault = none) ∧
      (r.fault = none → Tracked h (r.draft :: r.enclosing)
        (tally [.variable (levels + 1) slot] (ns :: needs))) := by
  induction ds with
  | nil => exact fun h => by cases h
  | cons o ds ih =>
    intro d r ns needs levels slot hr hps hc look t
    have ho := hps o List.mem_cons_self
    have outer : Need.outward [.variable (levels + 1) slot] = [.variable levels slot] := rfl
    rw [tally, outer]
    simp only [resolveUpvalue] at hr
    split at hr
    next slot' l hl =>
      cases hr
      obtain ⟨k, hk, -⟩ := hc.2.1 l (Draft.mem_of_findIn hl)
      have read : readFault l = none := by simp [readFault, hk]
      obtain ⟨rfl, rfl⟩ : levels = 0 ∧ slot = slot' := by
        rw [List.map_cons, lookup, Draft.names, slotIn_readable hl (by simp [hk])] at look
        cases look
        exact ⟨rfl, rfl⟩
      have small : slot.toUInt8.toNat = slot := by
        have : slot < 256 := Nat.lt_of_lt_of_le (Draft.findIn_captureIn hl).1 ho.locals
        simpa using this
      have around : Tracked h (o.captureLocal name :: ds) (tally [.variable 0 slot] needs) :=
        tracked_captureLocal.2 t.2.2.own
      have traces : Traces ((o.captureLocal name :: ds).map Draft.captures) (.variable 0 slot)
          ⟨true, slot.toUInt8⟩ := ⟨_, small, rfl⟩
      obtain ⟨room, tracked⟩ := t.capture around (forall₂_refl .refl _)
        (fun o' ho' => by
          obtain rfl | ho' := List.mem_cons.1 ho'
          · exact ho.distinct
          · exact (hps o' (List.mem_cons_of_mem _ ho')).distinct)
        traces
      simp only [read, Option.none_or]
      exact ⟨fun roomy => room (roomy _ List.mem_cons_self).2, tracked⟩
    next hl =>
      split at hr
      next => cases hr
      next r' hr' =>
        cases hr
        obtain ⟨m, needs, rfl⟩ : ∃ m needs', needs = m :: needs' := by
          cases needs with
          | nil => exact t.2.2.elim
          | cons m needs => exact ⟨m, needs, rfl⟩
        rw [List.map_cons, lookup, Draft.names, slotIn_readable_none hl] at look
        obtain ⟨⟨levels', slot'⟩, look', e⟩ := Option.map_eq_some_iff.1 look
        cases e
        have hps' := fun o' ho' => hps o' (List.mem_cons_of_mem _ ho')
        obtain ⟨room', tracked'⟩ := ih hr' hps' hc.2.2 look' t.2.2
        have found (hf : r'.fault = none) :
            Tracked h (r'.draft :: r'.enclosing)
                (tally [.variable (levels' + 1) slot] (m :: needs)) ∧
              List.Forall₂ Within ((o :: ds).map Draft.captures)
                ((r'.draft :: r'.enclosing).map Draft.captures) ∧
              (∀ o' ∈ r'.draft :: r'.enclosing, o'.captures.toList.Nodup) ∧
              Traces ((r'.draft :: r'.enclosing).map Draft.captures)
                (.variable (levels' + 1) slot) ⟨false, r'.index⟩ := by
          obtain ⟨grown, growns, proper, propers, -, -⟩ :=
            resolveUpvalue_grown hr' hf ho hps' hc.2.2
          obtain ⟨_, _, look'', leads⟩ := follow_resolveUpvalue hr' hf ho hps' hc.2.2
          cases look'.symm.trans look''
          refine ⟨tracked' hf, ?_, fun o' ho' => ?_, _, rfl, leads⟩
          · exact List.forall₂_map_left_iff.2 (List.forall₂_map_right_iff.2
              ((List.Forall₂.cons grown growns).imp fun _ _ g => g.captures))
          · obtain rfl | ho' := List.mem_cons.1 ho'
            · exact proper.distinct
            · exact (propers o' ho').distinct
        constructor
        · intro roomy
          have hf := room' fun ns hns => roomy ns (List.mem_cons_of_mem _ hns)
          obtain ⟨tracked, within, distinct, traces⟩ := found hf
          rw [hf, Option.none_or]
          exact (t.capture tracked within distinct traces).1 (roomy _ List.mem_cons_self).2
        · intro hf
          obtain ⟨hf, full⟩ := Option.or_eq_none_iff.1 hf
          obtain ⟨tracked, within, distinct, traces⟩ := found hf
          exact (t.capture tracked within distinct traces).2 full

end Resolve

end Compile
end StackScript
