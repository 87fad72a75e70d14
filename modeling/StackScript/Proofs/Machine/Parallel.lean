import StackScript.Proofs.Machine.Both

/-!
# StackScript.Proofs.Machine.Parallel

Instructions, executed by two machines that do the same.

* `both_…`, `roomed_…`: one rule for each kind of instruction. Those that put something on the heap
  need handles.
* `Bridge.Answers`, `answers_call`: the results of natives.
-/

namespace StackScript

namespace Bridge

open Machine

/-- Results of a native on two heaps. -/
inductive Answers (b : Bridge) : Answer (Value × World × Heap) → Answer (Value × World × Heap) →
    Prop where
  | refused (e : Refusal) : Answers b (.error e) (.error e)
  | plain {v w : Value} (world : World) : b.Values v w →
      Answers b (.ok (v, world, b.near)) (.ok (w, world, b.far))
  | text (content : String) (world : World) :
      Answers b (.ok (.object (b.near.intern content).2, world, (b.near.intern content).1))
        (.ok (.object (b.far.intern content).2, world, (b.far.intern content).1))

variable {s : Setting} {b : Bridge} {v w : Value}

theorem numberArgument_eq (h : b.Matches s) (hv : b.Values v w) (native : String) :
    numberArgument native b.far w = numberArgument native b.near v := by
  have types := h.typeName hv
  cases hv with
  | number => rfl
  | _ => simp only [numberArgument, Value.number?, types]

theorem stringArgument_eq (h : b.Matches s) (hv : b.Values v w) (native : String) :
    stringArgument native b.far w = stringArgument native b.near v := by
  rw [stringArgument, stringArgument, hv.text? h.faithful, h.typeName hv]

/-- Arrays that do the same, or the same refusal. -/
theorem arrayArgument_cases (h : b.Matches s) (hv : b.Values v w) (native : String) :
    (∃ xs ys, arrayArgument native b.near v = .ok xs ∧ arrayArgument native b.far w = .ok ys ∧
      List.Forall₂ b.Values xs.toList ys.toList) ∨
    ∃ e, arrayArgument native b.near v = .error e ∧ arrayArgument native b.far w = .error e := by
  have types := h.typeName hv
  have elements : Option.Rel (fun xs ys : Array Value => List.Forall₂ b.Values xs.toList ys.toList)
      (b.near.elements? v) (b.far.elements? w) := by
    cases hv with
    | object hr => exact h.array? hr
    | _ => exact .none
  rw [arrayArgument, arrayArgument, types]
  generalize b.near.elements? v = x at elements ⊢
  generalize b.far.elements? w = y at elements ⊢
  cases elements with
  | none => exact .inr ⟨_, rfl, rfl⟩
  | some hs => exact .inl ⟨_, _, rfl, rfl, hs⟩

theorem numbers_eq (h : b.Matches s) {vs ws : List Value} (hs : List.Forall₂ b.Values vs ws)
    (native : String) : numbers native b.far ws = numbers native b.near vs := by
  induction hs with
  | nil => rfl
  | cons hv _ ih => rw [numbers, numbers, numberArgument_eq h hv, ih]

theorem extreme_eq (h : b.Matches s) (hv : b.Values v w) (native : String)
    (pick : Float → Float → Float) :
    extreme native pick b.far w = extreme native pick b.near v := by
  unfold extreme
  obtain ⟨xs, ys, hx, hy, hs⟩ | ⟨e, hx, hy⟩ := arrayArgument_cases h hv native
  · rw [hx, hy]
    simp only [Bind.bind, Except.bind]
    rw [numbers_eq h hs]
  · rw [hx, hy]
    rfl

/-- An answer that depends on an argument that is the same on both heaps. -/
theorem Answers.bind {α : Type} {x y : Answer α} {f g : α → Answer (Value × World × Heap)}
    (e : y = x) (h : ∀ a, b.Answers (f a) (g a)) : b.Answers (x >>= f) (y >>= g) := by
  subst e
  cases y with
  | error e => exact .refused e
  | ok a => exact h a

theorem answers_call (h : b.Matches s) (hv : b.Values v w) (native : Builtin) (world : World) :
    b.Answers (native.call world b.near v) (native.call world b.far w) := by
  have number := numberArgument_eq h hv
  have string := stringArgument_eq h hv
  cases native with
  | clock => exact .plain _ (.number _)
  | sleep => exact .bind (number _) fun _ => .plain world .nil
  | fileExists => exact .bind (string _) fun _ => .plain _ (.bool _)
  | readFile =>
    refine .bind (string _) fun path => ?_
    dsimp only
    split
    · exact .text _ _
    · exact .plain _ .nil
  | least => exact .bind (extreme_eq h hv _ _) fun _ => .plain world (.number _)
  | greatest => exact .bind (extreme_eq h hv _ _) fun _ => .plain world (.number _)
  | length =>
    simp only [Builtin.call, hv.text? h.faithful]
    split
    · exact .plain world (.number _)
    · obtain ⟨xs, ys, hx, hy, hs⟩ | ⟨e, hx, hy⟩ := arrayArgument_cases h hv Builtin.length.name
      · have size : ys.size = xs.size := hs.length_eq.symm
        rw [hx, hy]
        simp only [Bind.bind, Except.bind]
        rw [size]
        exact .plain world (.number _)
      · rw [hx, hy]
        exact .refused e
  | random => exact .plain _ (.number _)
  | seed => exact .bind (number _) fun _ => .plain _ .nil
  | exit => exact .bind (number _) fun _ => .refused _

end Bridge

namespace Machine

section Instructions

variable {s : Setting} {b : Bridge} {k : Nat} {m n : Machine} {v w : Value}
  {E : Stop → Machine → Machine → Prop}

/-- Both machines can go on. -/
def Meets (s : Setting) (m n : Machine) : Prop :=
  ∃ b, Twin s b m n ∧ ∀ call ∈ m.frames.tail, 0 < call.ip

theorem Mid.meets (h : Mid s b k m n) : Meets s m n :=
  ⟨b, h.toTwin, fun call hc => h.moved call (List.mem_of_mem_tail hc)⟩

/-- Behind an instruction that leaves a value. -/
abbrev Done (s : Setting) (_ _ : Unit) (m n : Machine) : Prop := Meets s m n

theorem done_push (h : Mid s b k m n) (hv : b.Values v w) :
    Both (push v) (push w) m n (Done s) (Halts s) :=
  (both_push h hv).imp fun _ _ _ _ h => h.meets

section Numbers

theorem both_popNumbers (h : Mid s b (k + 3) m n) : Both popNumbers popNumbers m n
    (fun p p' m' n' => p' = p ∧ Mid s b (k + 1) m' n') (Halts s) := by
  refine .bind (both_peek h (by omega) fun v w hv => .bind (both_peek h (by omega)
    fun v' w' hv' => ?_))
  have none : Both (fail .notNumbers : Exec (Float × Float))
      (fail .notNumbers : Exec (Float × Float)) m n
      (fun p p' m' n' => p' = p ∧ Mid s b (k + 1) m' n') (Halts s) := .fail (h.halts _)
  cases hv with
  | number x =>
    cases hv' with
    | number y => exact .bind ((both_drop 2 h).imp fun _ _ _ _ h => .pure ⟨rfl, h⟩)
    | _ => exact none
  | _ => exact none

theorem both_numeric (h : Mid s b (k + 3) m n) (f : Float → Float → Float) :
    Both (numeric f) (numeric f) m n (Done s) (Halts s) := by
  refine .bind ((both_popNumbers h).imp fun p p' m' n' e => ?_)
  obtain ⟨rfl, h⟩ := e
  exact done_push h (.number _)

theorem both_comparison (h : Mid s b (k + 3) m n) (f : Float → Float → Bool) :
    Both (comparison f) (comparison f) m n (Done s) (Halts s) := by
  refine .bind ((both_popNumbers h).imp fun p p' m' n' e => ?_)
  obtain ⟨rfl, h⟩ := e
  exact done_push h (.bool _)

theorem both_compareEqual (h : Mid s b (k + 3) m n) :
    Both compareEqual compareEqual m n (Done s) (Halts s) := by
  refine .bind ((both_pop h).imp fun v w m' n' e => ?_)
  obtain ⟨hv, h⟩ := e
  refine .bind ((both_pop h).imp fun v' w' m' n' e => ?_)
  obtain ⟨hv', h⟩ := e
  rw [← h.matched.faithful.beq_eq hv' hv]
  exact done_push h (.bool _)

theorem both_invertTruth (h : Mid s b (k + 2) m n) :
    Both invertTruth invertTruth m n (Done s) (Halts s) := by
  refine .bind ((both_pop h).imp fun v w m' n' e => ?_)
  obtain ⟨hv, h⟩ := e
  rw [hv.isFalsey]
  exact done_push h (.bool _)

theorem both_negateNumber (h : Mid s b (k + 2) m n) :
    Both negateNumber negateNumber m n (Done s) (Halts s) := by
  refine .bind (both_peek h (by omega) fun v w hv => ?_)
  cases hv with
  | number x =>
    exact .bind ((both_pop h).imp fun _ _ _ _ e => done_push e.2 (.number _))
  | _ => exact .fail (h.halts _)

end Numbers

section Variables

variable {f g : Function} {i j : UInt8}

theorem both_readConstant (h : Mid s b k m n) (inner : Inner b m n f g)
    (hk : b.Constants f.chunk.constants g.chunk.constants i j) :
    Both (do push (← constant i)) (do push (← constant j)) m n (Done s) (Halts s) :=
  .bind (both_constant h.toTwin inner hk fun _ _ hv => done_push h hv)

theorem both_readLocal (h : Mid s b k m n) (hi : i ≠ 0) :
    Both (readLocal i) (readLocal i) m n (Done s) (Halts s) := by
  have pos : 0 < i.toNat := Nat.pos_of_ne_zero fun e => hi (UInt8.toNat_inj.1 e)
  refine .bind (both_frame h.toTwin fun c d _ _ _ _ same => ?_)
  rw [same.base]
  exact .bind (both_slot h.toTwin (by omega) fun _ _ hv => done_push h hv)

theorem both_assignLocal (h : Mid s b (k + 2) m n) :
    Both (assignLocal i) (assignLocal i) m n (Done s) (Halts s) := by
  refine .bind (both_frame h.toTwin fun c d _ _ _ _ same => ?_)
  rw [same.base]
  exact .bind (both_peek h (by omega) fun _ _ hv => (both_setSlot h _ hv).imp
    fun _ _ _ _ h => h.meets)

theorem both_readGlobal (h : Mid s b k m n) (inner : Inner b m n f g)
    (hk : b.Constants f.chunk.constants g.chunk.constants i j) :
    Both (readGlobal i) (readGlobal j) m n (Done s) (Halts s) := by
  refine .bind (both_nameConstant h.toTwin inner hk fun key key' name hr hq => .bind (.get ?_))
  have found := h.globals.get? hr hq
  generalize m.globals.get? key (Text.hash name) = x at found ⊢
  generalize n.globals.get? key' (Text.hash name) = y at found ⊢
  cases found with
  | none => exact .fail (h.halts _)
  | some hv => exact done_push h hv

/-- Both machines go on with other globals. -/
theorem Mid.reglobal (h : Mid s b k m n) {t t' : Table Value} (globals : b.Tables t t') :
    Mid s b k { m with globals := t } { n with globals := t' } :=
  ⟨⟨⟨h.near, h.far, h.matched, globals, h.output, h.world, h.hosts, h.hosts'⟩, h.calls, h.size,
    h.slots, h.opens⟩, h.count, h.moved⟩

theorem both_defineGlobal (h : Mid s b (k + 2) m n) (inner : Inner b m n f g)
    (hk : b.Constants f.chunk.constants g.chunk.constants i j) :
    Both (defineGlobal i) (defineGlobal j) m n (Done s) (Halts s) := by
  refine .bind (both_nameConstant h.toTwin inner hk fun key key' name hr hq => .bind
    (both_peek h (by omega) fun v w hv => .bind (.modify ?_)))
  have h' := h.reglobal (h.globals.insert h.matched.near h.matched.far hr hq hv).1
  exact .bind ((both_pop h').imp fun _ _ _ _ e => .pure e.2.meets)

theorem both_assignGlobal (h : Mid s b (k + 2) m n) (inner : Inner b m n f g)
    (hk : b.Constants f.chunk.constants g.chunk.constants i j) :
    Both (assignGlobal i) (assignGlobal j) m n (Done s) (Halts s) := by
  refine .bind (both_nameConstant h.toTwin inner hk fun key key' name hr hq => .bind
    (both_peek h (by omega) fun v w hv => .bind (.modifyGet ?_)))
  have inserted := h.globals.insert h.matched.near h.matched.far hr hq hv
  generalize m.globals.insert key (Text.hash name) v = p at inserted ⊢
  generalize n.globals.insert key' (Text.hash name) w = p' at inserted ⊢
  obtain ⟨t, isNew⟩ := p
  obtain ⟨t', isNew'⟩ := p'
  obtain ⟨same, rfl, withdrawn⟩ := inserted
  have h' := h.reglobal same
  dsimp only
  split
  next new => exact .bind (.modify (.fail ((h'.reglobal (withdrawn new)).halts _)))
  next => exact .pure h'.meets

theorem both_readUpvalue (h : Mid s b k m n) :
    Both (readUpvalue i) (readUpvalue i) m n (Done s) (Halts s) := by
  refine .bind (both_upvalueRef h.toTwin i fun r q hp => .bind (.get ?_))
  have upvalues := h.matched.upvalue? hp
  rw [h.near, h.far] at upvalues
  generalize m.heap.upvalue? r = x at upvalues ⊢
  generalize n.heap.upvalue? q = y at upvalues ⊢
  cases upvalues with
  | none => exact .bad
  | some same =>
    cases same with
    | opened pos => exact .bind (both_slot h.toTwin pos fun _ _ hv => done_push h hv)
    | closed hv => exact done_push h hv

theorem both_assignUpvalue (h : Mid s b (k + 2) m n) :
    Both (assignUpvalue i) (assignUpvalue i) m n (Done s) (Halts s) := by
  refine .bind (both_upvalueRef h.toTwin i fun r q hp => .bind (both_peek h (by omega)
    fun v w hv => .bind (.get ?_)))
  have upvalues := h.matched.upvalue? hp
  rw [h.near, h.far] at upvalues
  cases hr : m.heap.upvalue? r with
  | none => exact .bad
  | some u =>
    cases hq : n.heap.upvalue? q with
    | none =>
      rw [hr, hq] at upvalues
      cases upvalues
    | some u' =>
      rw [hr, hq] at upvalues
      cases upvalues with
      | some same =>
        cases same with
        | opened pos => exact (both_setSlot h _ hv).imp fun _ _ _ _ h => h.meets
        | closed =>
          obtain ⟨b', below, matched, near, far⟩ :=
            h.matched.close hp (h.near ▸ hr) (h.far ▸ hq) hv
          rw [h.near] at near
          rw [h.far] at far
          refine .modify ⟨b', h.toTwin.onward below matched near far, fun call hc => ?_⟩
          exact h.moved call (List.mem_of_mem_tail hc)

end Variables

section Heaps

theorem both_element {target index target' index' : Value} (h : Mid s b k m n)
    (ht : b.Values target target') (hi : b.Values index index') :
    Both (element target index) (element target' index') m n (fun p p' m' n' =>
      m' = m ∧ n' = n ∧ p'.2 = p.2 ∧ b.Refs p.1 p'.1 ∧ ∃ xs ys, m.heap.array? p.1 = some xs ∧
        n.heap.array? p'.1 = some ys ∧ List.Forall₂ b.Values xs.toList ys.toList) (Halts s) := by
  cases ht with
  | @object r q refs =>
    refine .bind (.get ?_)
    have arrays := h.matched.array? refs
    rw [h.near, h.far] at arrays
    cases hx : m.heap.array? r with
    | none =>
      cases hy : n.heap.array? q with
      | none => exact .fail (h.halts _)
      | some ys =>
        rw [hx, hy] at arrays
        cases arrays
    | some xs =>
      cases hy : n.heap.array? q with
      | none =>
        rw [hx, hy] at arrays
        cases arrays
      | some ys =>
        rw [hx, hy] at arrays
        cases arrays with
        | some same =>
          have size : ys.size = xs.size := same.length_eq.symm
          cases hi with
          | number x =>
            dsimp only
            rw [size]
            split
            · exact .pure ⟨rfl, rfl, rfl, refs, xs, ys, hx, hy, same⟩
            · exact .fail (h.halts _)
          | _ => exact .fail (h.halts _)
  | _ => exact .fail (h.halts _)

theorem both_readElement (h : Mid s b (k + 3) m n) :
    Both readElement readElement m n (Done s) (Halts s) := by
  refine .bind ((both_pop h).imp fun v w m' n' e => ?_)
  obtain ⟨hi, h⟩ := e
  refine .bind ((both_pop h).imp fun v w m' n' e => ?_)
  obtain ⟨ht, h⟩ := e
  refine .bind ((both_element h ht hi).imp fun p p' m' n' e => ?_)
  obtain ⟨r, _⟩ := p
  obtain ⟨q, i⟩ := p'
  obtain ⟨rfl, rfl, rfl, refs, xs, ys, hx, hy, same⟩ := e
  refine .bind (.get ?_)
  dsimp only at hx hy ⊢
  rw [hx, hy]
  refine done_push h ?_
  have element := forall₂_rel same i
  rw [Array.getElem?_toList, Array.getElem?_toList] at element
  simp only [Option.bind_some]
  generalize xs[i]? = x at element ⊢
  generalize ys[i]? = y at element ⊢
  cases element with
  | none => exact .nil
  | some hv => exact hv

theorem both_assignElement (h : Mid s b (k + 4) m n) :
    Both assignElement assignElement m n (Done s) (Halts s) := by
  refine .bind ((both_pop h).imp fun v w m' n' e => ?_)
  obtain ⟨hv, h⟩ := e
  refine .bind ((both_pop h).imp fun _ _ m' n' e => ?_)
  obtain ⟨hi, h⟩ := e
  refine .bind ((both_pop h).imp fun _ _ m' n' e => ?_)
  obtain ⟨ht, h⟩ := e
  refine .bind ((both_element h ht hi).imp fun p p' m' n' e => ?_)
  obtain ⟨r, _⟩ := p
  obtain ⟨q, i⟩ := p'
  obtain ⟨rfl, rfl, rfl, refs, xs, ys, hx, hy, same⟩ := e
  have plain : b.near.string? r = none := by
    rw [h.near, Heap.string?, Heap.array?_eq_some.1 hx]
  have pair := refs.pairs_of_plain plain
  obtain ⟨b', below, matched, near, far⟩ :=
    h.matched.setElement pair i (h.near ▸ hx) (h.far ▸ hy) same hv
  rw [h.near] at near
  rw [h.far] at far
  have t := h.toTwin.onward below matched near far
  exact .bind (.modify (done_push ⟨t, h.count, h.moved⟩ (below.values hv)))

theorem roomed_intern (h : Mid s b k m n) (text : String) : Roomed (intern text) (intern text) m n
    (fun r q m' n' => ∃ b', Mid s b' k m' n' ∧ b.Below b' ∧ b'.Refs r q) E := by
  intro room room'
  obtain ⟨b', t, below, refs⟩ := h.toTwin.intern room room'
  exact .modifyGet ⟨b', ⟨t, h.count, h.moved⟩, below, refs⟩

theorem roomed_allocate (h : Mid s b k m n) {o p : Object} (same : ∀ r q, b.Same s r q o p) :
    Roomed (allocate o) (allocate p) m n
      (fun r q m' n' => ∃ b', Mid s b' k m' n' ∧ b.Below b' ∧ b'.pairs r q) E := by
  intro room room'
  obtain ⟨b', t, below, pair⟩ := h.toTwin.allocate same room room'
  exact .modifyGet ⟨b', ⟨t, h.count, h.moved⟩, below, pair⟩

theorem grows_push (v : Value) : Grows (push v) := fun m => .push (Larger.stable m) v

theorem roomed_sum {v' w' : Value} (h : Mid s b k m n) (hv : b.Values v w) (hv' : b.Values v' w') :
    Roomed (sum v v') (sum w w') m n
      (fun x y m' n' => ∃ b', Mid s b' k m' n' ∧ b'.Values x y) (Halts s) := by
  unfold sum
  split
  next =>
    cases hv
    cases hv'
    exact (Both.pure ⟨b, h, .number _⟩).roomed
  next other =>
    split
    next =>
      cases hv
      cases hv'
      exact (other _ _ rfl rfl).elim
    refine .bind (.get ?_)
    dsimp only
    rw [← h.near, ← h.far, hv.text? h.matched.faithful, hv'.text? h.matched.faithful]
    split
    · refine .andThen h.hosts h.hosts' (fun m => .intern (Larger.stable m) _)
        (fun m => .intern (Larger.stable m) _) (fun r m => .pure _) (fun r m => .pure _)
        (roomed_intern h _) fun r q m' n' e => ?_
      obtain ⟨b', h, -, refs⟩ := e
      exact (Both.pure ⟨b', h, .object refs⟩).roomed
    · exact (Both.fail (h.halts _)).roomed

theorem roomed_addOperands (h : Mid s b (k + 3) m n) :
    Roomed addOperands addOperands m n (Done s) (Halts s) := by
  refine .bind (both_peek h (by omega) fun v w hv => .bind (both_peek h (by omega)
    fun v' w' hv' => ?_))
  have grows (v : Value) : Grows (do drop 2; push v) := fun m =>
    .bind (.drop (Larger.stable m) 2) fun _ => .push (Larger.stable m) v
  refine .andThen h.hosts h.hosts' (fun m => .sum (Larger.stable m) _ _)
    (fun m => .sum (Larger.stable m) _ _) grows grows (roomed_sum h hv hv')
    fun x y m' n' e => Both.roomed ?_
  obtain ⟨b', h, values⟩ := e
  exact .bind ((both_drop 2 h).imp fun _ _ _ _ h => done_push h values)

theorem both_printTop (h : Mid s b (k + 2) m n) :
    Both printTop printTop m n (Done s) (Halts s) := by
  rw [printTop_eq]
  refine .bind ((both_pop h).imp fun v w m' n' e => .bind (.modifyGet ?_))
  obtain ⟨hv, h⟩ := e
  have shown : n'.heap.display w = m'.heap.display v := by
    rw [← h.near, ← h.far]
    exact h.matched.display hv
  have h' : Mid s b (k + 1)
      { m' with output := (m'.output.write (m'.heap.display v ++ "\n")).1 }
      { n' with output := (n'.output.write (n'.heap.display w ++ "\n")).1 } :=
    ⟨⟨⟨h.near, h.far, h.matched, h.globals, by rw [shown, h.output], h.world, h.hosts, h.hosts'⟩,
      h.calls, h.size, h.slots, h.opens⟩, h.count, h.moved⟩
  simp only [shown, h.output] at h' ⊢
  split
  · exact .pure h'.meets
  · exact .throw (h'.halts _)

theorem roomed_makeArray {c : UInt8} (h : Mid s b (k + 1 + c.toNat) m n) :
    Roomed (makeArray c) (makeArray c) m n (Done s) (Halts s) := by
  have count := h.count
  unfold makeArray
  refine .bind (.get ?_)
  dsimp only
  rw [h.size, if_pos (by omega), if_pos (by omega)]
  have elements := h.toTwin.extract (m.stack.size - c.toNat) (by omega)
  rw [h.size] at elements
  refine .bind ((both_truncate h _).imp fun _ _ m' n' h => ?_)
  rw [count, show min (k + 1 + c.toNat - c.toNat) (k + 1 + c.toNat) = k + 1 by omega] at h
  refine .andThen h.hosts h.hosts' (fun m => .allocate (Larger.stable m) (by simp) (by simp))
    (fun m => .allocate (Larger.stable m) (by simp) (by simp)) (fun r => grows_push _)
    (fun r => grows_push _) (roomed_allocate h fun _ _ => .array elements) fun r q m' n' e => ?_
  obtain ⟨b', h, -, pair⟩ := e
  exact (done_push h (.object (.paired pair))).roomed

theorem both_closeTop (h : Mid s b (k + 2) m n) :
    Both closeTop closeTop m n (Done s) (Halts s) := by
  unfold closeTop
  refine .bind (.modify ?_)
  rw [h.size]
  obtain ⟨b', t, -⟩ := h.toTwin.close (m.stack.size - 1)
  have h' : Mid s b' (k + 2) (m.closeUpvalues (m.stack.size - 1))
      (n.closeUpvalues (m.stack.size - 1)) := ⟨t, h.count, h.moved⟩
  exact .bind ((both_pop h').imp fun _ _ _ _ e => .pure e.2.meets)

end Heaps

end Instructions
end Machine
end StackScript
