import StackScript.Proofs.Machine.Globals
import StackScript.Proofs.Store.Matching

/-!
# StackScript.Proofs.Machine.Twin

Two machines that do the same with other handles.

* `Bridge.Tables`: tables of globals that give the same names values that stand for the same.
* `SameCall`: calls that wait for the same instruction.
* `Shared`: heaps, globals, output and world of two machines. `Twin`: their calls and stacks, too.
* `Twin.push`, `Twin.close`, `Twin.capture`, …: what is done to both machines.
-/

namespace StackScript

namespace Bridge

/-- The values of names in two tables. -/
def Tables (b : Bridge) (t t' : Table Value) : Prop :=
  ∃ d g d' g', Directory b.near t d g ∧ Directory b.far t' d' g' ∧
    ∀ name, Option.Rel b.Values (g.lookup name) (g'.lookup name)

namespace Tables

variable {b b' : Bridge} {t t' : Table Value} {key key' : Ref} {name : String} {v w : Value}

theorem mono (h : b.Tables t t') (hb : b.Below b') (sound : b'.near.Sound)
    (sound' : b'.far.Sound) : b'.Tables t t' := by
  obtain ⟨d, g, d', g', near, far, same⟩ := h
  refine ⟨d, g, d', g', near.onward (fun _ _ => hb.near.string?) sound,
    far.onward (fun _ _ => hb.far.string?) sound', fun name => ?_⟩
  have same := same name
  generalize g.lookup name = x at same ⊢
  generalize g'.lookup name = y at same ⊢
  cases same with
  | some hv => exact .some (hb.values hv)
  | none => exact .none

theorem get? (h : b.Tables t t') (hk : b.near.string? key = some name)
    (hk' : b.far.string? key' = some name) : Option.Rel b.Values (t.get? key (Text.hash name))
      (t'.get? key' (Text.hash name)) := by
  obtain ⟨d, g, d', g', near, far, same⟩ := h
  rw [near.get?_eq hk, far.get?_eq hk']
  exact same name

/-- A name gets a value in both tables. It is new in both, or in none. -/
theorem insert (h : b.Tables t t') (sound : b.near.Sound) (sound' : b.far.Sound)
    (hk : b.near.string? key = some name) (hk' : b.far.string? key' = some name)
    (hv : b.Values v w) :
    b.Tables (t.insert key (Text.hash name) v).1 (t'.insert key' (Text.hash name) w).1 ∧
    (t'.insert key' (Text.hash name) w).2 = (t.insert key (Text.hash name) v).2 ∧
    ((t.insert key (Text.hash name) v).2 = true →
      b.Tables ((t.insert key (Text.hash name) v).1.erase key (Text.hash name)).1
        ((t'.insert key' (Text.hash name) w).1.erase key' (Text.hash name)).1) := by
  obtain ⟨d, g, d', g', near, far, same⟩ := h
  have absent : name ∉ g ↔ name ∉ g' := by
    rw [← Finmap.lookup_eq_none, ← Finmap.lookup_eq_none]
    have := same name
    generalize g.lookup name = x at this
    generalize g'.lookup name = y at this
    cases this <;> simp
  refine ⟨⟨_, _, _, _, near.insert sound hk v, far.insert sound' hk' w, fun other => ?_⟩, ?_,
    fun new => ?_⟩
  · by_cases e : other = name
    · subst e
      rw [Finmap.lookup_insert, Finmap.lookup_insert]
      exact .some hv
    · rw [Finmap.lookup_insert_of_ne _ e, Finmap.lookup_insert_of_ne _ e]
      exact same other
  · rw [near.insert_new hk, far.insert_new hk']
    exact decide_eq_decide.2 absent.symm
  · rw [near.insert_new hk, decide_eq_true_iff] at new
    exact ⟨_, _, _, _, near.withdraw hk v new, far.withdraw hk' w (absent.1 new), same⟩

end Tables
end Bridge

namespace Machine

/-- Calls that wait for the same instruction. -/
structure SameCall (s : Setting) (b : Bridge) (c d : Frame) : Prop where
  base : d.base = c.base
  ip : d.ip = s.start c.function + c.ip
  code : ∃ f g, b.near.function? c.function = some f ∧ b.far.function? d.function = some g ∧
    b.Functions (s.shift c.function) (s.start c.function) (s.limit c.function f) f g ∧
    c.ip ≤ s.limit c.function f
  upvalues : ∃ k l, b.near.closure? c.closure = some k ∧ b.far.closure? d.closure = some l ∧
    List.Forall₂ b.pairs k.upvalues.toList l.upvalues.toList
  host : c.function = s.script → d.function = s.host

/-- All calls of two machines. The outermost one is that of the script, and it is the only one. -/
inductive SameCalls (s : Setting) (b : Bridge) : List Frame → List Frame → Prop where
  | script {c d : Frame} : SameCall s b c d → c.function = s.script → SameCalls s b [c] [d]
  | call {c d : Frame} {cs ds : List Frame} : SameCall s b c d → c.function ≠ s.script →
      SameCalls s b cs ds → SameCalls s b (c :: cs) (d :: ds)

/-- What two machines have in common but for their calls. -/
structure Shared (s : Setting) (b : Bridge) (m n : Machine) : Prop where
  near : b.near = m.heap
  far : b.far = n.heap
  matched : b.Matches s
  globals : b.Tables m.globals n.globals
  output : n.output = m.output
  world : n.world = m.world
  hosts : m.hosts = #[]
  hosts' : n.hosts = #[]

/-- Machines that do the same. The lowest slot, which has the script, may be different. -/
structure Twin (s : Setting) (b : Bridge) (m n : Machine) : Prop extends Shared s b m n where
  calls : SameCalls s b m.frames n.frames
  size : n.stack.size = m.stack.size
  slots : ∀ ⦃i v w⦄, 0 < i → m.stack[i]? = some v → n.stack[i]? = some w → b.Values v w
  opens : List.Forall₂ b.pairs m.openUpvalues n.openUpvalues

variable {s : Setting} {b b' : Bridge} {m n : Machine} {v w : Value}

theorem SameCall.mono {c d : Frame} (h : SameCall s b c d) (hb : b.Below b') :
    SameCall s b' c d := by
  obtain ⟨f, g, hf, hg, same, ip⟩ := h.code
  obtain ⟨k, l, hk, hl, upvalues⟩ := h.upvalues
  exact ⟨h.base, h.ip, ⟨f, g, hb.near.function? hf, hb.far.function? hg, same.mono hb, ip⟩,
    ⟨k, l, hb.near.closure? hk, hb.far.closure? hl, upvalues.imp hb.pairs⟩, h.host⟩

namespace SameCalls

variable {c : Frame} {cs ds fs : List Frame}

theorem mono (h : SameCalls s b cs ds) (hb : b.Below b') : SameCalls s b' cs ds := by
  induction h with
  | script same hs => exact .script (same.mono hb) hs
  | call same hs _ ih => exact .call (same.mono hb) hs ih

theorem length_eq (h : SameCalls s b cs ds) : ds.length = cs.length := by
  induction h with
  | script => rfl
  | call _ _ _ ih => rw [List.length_cons, List.length_cons, ih]

/-- The innermost calls; they may go on as long as they do so in the same way. -/
theorem uncons (h : SameCalls s b (c :: cs) fs) : ∃ d ds, fs = d :: ds ∧ SameCall s b c d ∧
    ∀ c' d', SameCall s b c' d' → c'.function = c.function →
      SameCalls s b (c' :: cs) (d' :: ds) := by
  cases h with
  | script same hs => exact ⟨_, _, rfl, same, fun _ _ h e => .script h (e.trans hs)⟩
  | call same hs rest => exact ⟨_, _, rfl, same, fun _ _ h e => .call h (e.trans_ne hs) rest⟩

/-- The calls around one that is not that of the script. -/
theorem tail (h : SameCalls s b (c :: cs) fs) (hc : c.function ≠ s.script) :
    SameCalls s b cs fs.tail := by
  cases h with
  | script _ hs => exact absurd hs hc
  | call _ _ rest => exact rest

theorem forall₂ (h : SameCalls s b cs ds) : List.Forall₂ (SameCall s b) cs ds := by
  induction h with
  | script same => exact .cons same .nil
  | call same _ _ ih => exact .cons same ih

end SameCalls

/-- Both heaps go on. -/
theorem Shared.onward (t : Shared s b m n) (hb : b.Below b') (matched : b'.Matches s)
    {heap heap' : Heap} (near : b'.near = heap) (far : b'.far = heap') :
    Shared s b' { m with heap := heap } { n with heap := heap' } :=
  ⟨near, far, matched, t.globals.mono hb matched.near matched.far, t.output, t.world, t.hosts,
    t.hosts'⟩

namespace Twin

section Heaps

variable {heap heap' : Heap}

theorem onward (t : Twin s b m n) (hb : b.Below b') (matched : b'.Matches s)
    (near : b'.near = heap) (far : b'.far = heap') :
    Twin s b' { m with heap := heap } { n with heap := heap' } :=
  ⟨t.toShared.onward hb matched near far, t.calls.mono hb, t.size,
    fun _ _ _ hi hv hw => hb.values (t.slots hi hv hw), t.opens.imp hb.pairs⟩

theorem intern (t : Twin s b m n) {text : String}
    (room : (m.heap.intern text).1.size ≤ UInt32.size)
    (room' : (n.heap.intern text).1.size ≤ UInt32.size) :
    ∃ b', Twin s b' { m with heap := (m.heap.intern text).1 }
      { n with heap := (n.heap.intern text).1 } ∧ b.Below b' ∧
      b'.Refs (m.heap.intern text).2 (n.heap.intern text).2 := by
  rw [← t.near] at room ⊢
  rw [← t.far] at room' ⊢
  obtain ⟨b', below, matched, near, far, refs⟩ := t.matched.intern _ room room'
  exact ⟨b', t.onward below matched near far, below, refs⟩

theorem allocate (t : Twin s b m n) {o p : Object} (same : ∀ r q, b.Same s r q o p)
    (room : (m.heap.allocate o).1.size ≤ UInt32.size)
    (room' : (n.heap.allocate p).1.size ≤ UInt32.size) :
    ∃ b', Twin s b' { m with heap := (m.heap.allocate o).1 }
      { n with heap := (n.heap.allocate p).1 } ∧ b.Below b' ∧
      b'.pairs (m.heap.allocate o).2 (n.heap.allocate p).2 := by
  rw [← t.near] at room ⊢
  rw [← t.far] at room' ⊢
  obtain ⟨b', below, matched, near, far, pair⟩ := t.matched.allocate same room room'
  exact ⟨b', t.onward below matched near far, below, pair⟩

end Heaps

section Stack

theorem restack (t : Twin s b m n) {xs ys : Array Value} (size : ys.size = xs.size)
    (slots : ∀ ⦃i v w⦄, 0 < i → xs[i]? = some v → ys[i]? = some w → b.Values v w) :
    Twin s b { m with stack := xs } { n with stack := ys } :=
  ⟨⟨t.near, t.far, t.matched, t.globals, t.output, t.world, t.hosts, t.hosts'⟩, t.calls, size,
    slots, t.opens⟩

theorem push (t : Twin s b m n) (hv : b.Values v w) :
    Twin s b { m with stack := m.stack.push v } { n with stack := n.stack.push w } := by
  refine t.restack (by simp [t.size]) fun i x y hi hx hy => ?_
  rw [Array.getElem?_push] at hx hy
  rw [t.size] at hy
  split at hx
  next e =>
    rw [if_pos e] at hy
    cases hx
    cases hy
    exact hv
  next e =>
    rw [if_neg e] at hy
    exact t.slots hi hx hy

theorem shrink (t : Twin s b m n) (k : Nat) :
    Twin s b { m with stack := m.stack.shrink k } { n with stack := n.stack.shrink k } := by
  refine t.restack (by simp [t.size]) fun i x y hi hx hy => ?_
  have inside : i < k := by
    obtain ⟨lt, -⟩ := Array.getElem?_eq_some_iff.1 hx
    rw [Array.size_shrink] at lt
    omega
  rw [getElem?_shrink inside] at hx hy
  exact t.slots hi hx hy

theorem pop (t : Twin s b m n) :
    Twin s b { m with stack := m.stack.pop } { n with stack := n.stack.pop } := by
  have := t.shrink (m.stack.size - 1)
  rw [Array.shrink_eq_take, Array.take, Array.extract_eq_pop rfl, ← t.size, Array.shrink_eq_take,
    Array.take, Array.extract_eq_pop rfl] at this
  exact this

theorem setSlot (t : Twin s b m n) (i : Nat) (hv : b.Values v w) :
    Twin s b { m with stack := m.stack.setIfInBounds i v }
      { n with stack := n.stack.setIfInBounds i w } := by
  refine t.restack (by simp [t.size]) fun j x y hj hx hy => ?_
  rw [Array.getElem?_setIfInBounds] at hx hy
  rw [t.size] at hy
  split at hx
  next e =>
    rw [if_pos e] at hy
    split at hx
    next inside =>
      rw [if_pos inside] at hy
      cases hx
      cases hy
      exact hv
    next => cases hx
  next e =>
    rw [if_neg e] at hy
    exact t.slots hj hx hy

/-- The uppermost slots. -/
theorem extract (t : Twin s b m n) (start : Nat) (hs : 0 < start) :
    List.Forall₂ b.Values (m.stack.extract start m.stack.size).toList
      (n.stack.extract start n.stack.size).toList := by
  refine List.forall₂_iff_get.2 ⟨by simp [t.size], fun i h h' => ?_⟩
  simp only [Array.length_toList] at h h'
  refine t.slots (i := start + i) (by omega) ?_ ?_
  · rw [List.get_eq_getElem, Array.getElem_toList, Array.getElem_extract]
    exact Array.getElem?_eq_getElem _
  · rw [List.get_eq_getElem, Array.getElem_toList, Array.getElem_extract]
    exact Array.getElem?_eq_getElem _

end Stack

section Upvalues

theorem slotOf_eq (h : b.Matches s) {r q : Ref} (hp : b.pairs r q) :
    slotOf b.far q = slotOf b.near r := by
  have upvalues := h.upvalue? hp
  rw [slotOf, slotOf]
  generalize b.near.upvalue? r = x at upvalues ⊢
  generalize b.far.upvalue? q = y at upvalues ⊢
  cases upvalues with
  | none => rfl
  | some same => cases same <;> rfl

/-- Slots that both machines have. -/
theorem values_getD (t : Twin s b m n) {slot : Nat} (hs : 0 < slot) :
    b.Values (m.stack[slot]?.getD .nil) (n.stack[slot]?.getD .nil) := by
  by_cases inside : slot < m.stack.size
  · have inside' : slot < n.stack.size := by rwa [t.size]
    have near := Array.getElem?_eq_getElem inside
    have far := Array.getElem?_eq_getElem inside'
    rw [near, far]
    exact t.slots hs near far
  · have inside' : ¬slot < n.stack.size := by rwa [t.size]
    rw [Array.getElem?_eq_none (Nat.le_of_not_lt inside),
      Array.getElem?_eq_none (Nat.le_of_not_lt inside')]
    exact .nil

theorem matches_closeFrom {opens opens' : List Ref} (xs ys : Array Value) (least : Nat) :
    ∀ {b : Bridge}, b.Matches s → List.Forall₂ b.pairs opens opens' →
    (∀ slot, 0 < slot → b.Values (xs[slot]?.getD .nil) (ys[slot]?.getD .nil)) →
    ∃ b', b.Below b' ∧ b'.Matches s ∧ b'.near = (closeFrom least xs b.near opens).1 ∧
      b'.far = (closeFrom least ys b.far opens').1 ∧
      List.Forall₂ b'.pairs (closeFrom least xs b.near opens).2
        (closeFrom least ys b.far opens').2 := by
  induction opens generalizing opens' with
  | nil =>
    intro b h hs _
    cases hs
    exact ⟨b, .refl b, h, rfl, rfl, .nil⟩
  | cons r opens ih =>
    intro b h hs values
    obtain ⟨q, opens', hp, tail, rfl⟩ := List.forall₂_cons_left_iff.1 hs
    have upvalues := h.upvalue? hp
    rw [closeFrom, closeFrom]
    cases hr : b.near.upvalue? r with
    | none =>
      rw [hr] at upvalues
      generalize b.far.upvalue? q = y at upvalues ⊢
      cases upvalues
      exact ih h tail values
    | some u =>
      cases hq : b.far.upvalue? q with
      | none =>
        rw [hr, hq] at upvalues
        cases upvalues
      | some u' =>
        rw [hr, hq] at upvalues
        cases upvalues with
        | some same =>
          cases same with
          | closed => exact ih h tail values
          | @opened slot pos =>
            dsimp only
            split
            · exact ⟨b, .refl b, h, rfl, rfl, .cons hp tail⟩
            · obtain ⟨b₁, below, matched, near, far⟩ := h.close hp hr hq (values slot pos)
              obtain ⟨b', below', rest⟩ := ih matched (tail.imp below.pairs)
                fun slot pos => below.values (values slot pos)
              rw [near, far] at rest
              exact ⟨b', below.trans below', rest⟩

/-- The variables in the slots from `least` on are given a place on both heaps. -/
theorem close (t : Twin s b m n) (least : Nat) :
    ∃ b', Twin s b' (m.closeUpvalues least) (n.closeUpvalues least) ∧ b.Below b' := by
  obtain ⟨b', below, matched, near, far, opens⟩ :=
    matches_closeFrom m.stack n.stack least t.matched t.opens fun _ => t.values_getD
  rw [t.near] at near opens
  rw [t.far] at far opens
  have t' := t.onward below matched near far
  exact ⟨b', ⟨⟨t'.near, t'.far, t'.matched, t'.globals, t'.output, t'.world, t'.hosts, t'.hosts'⟩,
    t'.calls, t'.size, t'.slots, opens⟩, below⟩

/-- Both machines capture a slot. -/
theorem capture (t : Twin s b m n) {slot : Nat} (hs : 0 < slot)
    (room : (m.captureSlot slot).1.heap.size ≤ UInt32.size)
    (room' : (n.captureSlot slot).1.heap.size ≤ UInt32.size) :
    ∃ b', Twin s b' (m.captureSlot slot).1 (n.captureSlot slot).1 ∧ b.Below b' ∧
      b'.pairs (m.captureSlot slot).2 (n.captureSlot slot).2 := by
  have slots (r q : Ref) (hp : b.pairs r q) : slotOf n.heap q = slotOf m.heap r := by
    rw [← t.near, ← t.far]
    exact slotOf_eq t.matched hp
  have found := forall₂_find? (p := fun r => slotOf m.heap r == slot)
    (q := fun q => slotOf n.heap q == slot) (fun r q hp => by rw [slots r q hp]) t.opens
  unfold captureSlot at room room' ⊢
  generalize m.openUpvalues.find? (fun r => slotOf m.heap r == slot) = x at *
  generalize n.openUpvalues.find? (fun q => slotOf n.heap q == slot) = y at *
  cases found with
  | some hp => exact ⟨b, t, .refl b, hp⟩
  | none =>
    have higher (r q : Ref) (hp : b.pairs r q) :
        decide (slot < slotOf n.heap q) = decide (slot < slotOf m.heap r) := by
      rw [slots r q hp]
    obtain ⟨b', t', below, pair⟩ := t.allocate (fun _ _ => .opened hs) room room'
    refine ⟨b', ⟨⟨t'.near, t'.far, t'.matched, t'.globals, t'.output, t'.world, t'.hosts,
      t'.hosts'⟩, t'.calls, t'.size, t'.slots, ?_⟩, below, pair⟩
    exact List.rel_append ((forall₂_takeWhile higher t.opens).imp below.pairs)
      (.cons pair ((forall₂_dropWhile higher t.opens).imp below.pairs))

end Upvalues

section Calls

/-- Both machines go on with other calls. -/
theorem reframe (t : Twin s b m n) {fs gs : List Frame} (calls : SameCalls s b fs gs) :
    Twin s b { m with frames := fs } { n with frames := gs } :=
  ⟨⟨t.near, t.far, t.matched, t.globals, t.output, t.world, t.hosts, t.hosts'⟩, calls, t.size,
    t.slots, t.opens⟩

end Calls

end Twin
end Machine
end StackScript
