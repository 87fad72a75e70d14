import StackScript.Proofs.Machine.Holds

/-!
# StackScript.Proofs.Machine.Calls

The instructions that touch captured variables or calls.

* `leads_assignLocal`, `leads_readUpvalue`, `leads_assignUpvalue`: access to captured variables.
* `ends_makeClosure`: what a new closure captures.
* `ends_startCall`, `ends_endCall`: a call begins and ends.
-/

namespace StackScript
namespace Machine

open Bytecode
open Bytecode.Shape (temporaries Below)

variable {h₀ : Heap} {W W' : Ref → Value → Prop} {fs : List Frame} {σ ρ : Shape} {m : Machine}

section Captured

variable {call : Frame} {outer : List Frame}

/-- The values that captured variables should have once a slot is assigned. -/
theorem Holds.setSlot (h : Holds h₀ W fs σ m) {slot : Nat} {v : Value} (hs : slot < m.stack.size)
    (hW : m.heap.size ≤ UInt32.size → ∀ r v', W' r v' →
      (m.heap.upvalue? r = some (.opened slot) ∧ v' = v) ∨
      (m.heap.upvalue? r ≠ some (.opened slot) ∧ W r v')) :
    Holds h₀ W' fs σ { m with stack := m.stack.setIfInBounds slot v } := by
  refine ⟨h.frames, by simpa using h.size, h.hosts, h.kept, h.grown, h.closures, h.tracked,
    fun hb r v' hv => ?_⟩
  obtain ⟨e, rfl⟩ | ⟨ne, old⟩ := hW hb r v' hv
  · rw [content, e]
    exact Array.getElem?_setIfInBounds_self_of_lt hs
  · refine content_agree (h.contents hb old) fun slot' e => ?_
    have other : slot ≠ slot' := by
      rintro rfl
      exact ne e
    exact Array.getElem?_setIfInBounds_ne other

theorem leads_assignLocal {i : UInt8} (h : Holds h₀ W (call :: outer) (false :: σ) m)
    (hi : call.base + i.toNat < σ.length)
    (hW : m.heap.size ≤ UInt32.size → ∀ r v', W' r v' →
      (m.heap.upvalue? r = some (.opened (call.base + i.toNat)) ∧ m.stack.back? = some v') ∨
      (m.heap.upvalue? r ≠ some (.opened (call.base + i.toNat)) ∧ W r v')) :
    Leads h₀ W' (call :: outer) (assignLocal i) m (false :: σ) := by
  have room := h.room
  have size := h.size
  rw [List.length_cons] at size
  refine .bind (.frame h.frames (.bind (.peek h.room fun v hv => ?_)))
  have last : m.stack.back? = some v := by rwa [Array.back?]
  refine .setSlot (by omega) (h.setSlot (by omega) fun hb r v' w => ?_)
  obtain ⟨e, hv'⟩ | old := hW hb r v' w
  · exact .inl ⟨e, Option.some.inj (hv'.symm.trans last)⟩
  · exact .inr old

/-- An upvalue of the closure that is running, while the heap is as it was. -/
theorem Holds.upvalue (h : Holds h₀ W (call :: outer) σ m) (hb : m.heap.size ≤ UInt32.size)
    {k : Closure} {f : Function} {i : UInt8} (hk : m.heap.closure? call.closure = some k)
    (hf : m.heap.function? k.function = some f) (hi : i.toNat < f.upvalueCount) :
    ∃ r u, k.upvalues[i.toNat]? = some r ∧ m.heap.upvalue? r = some u ∧
      ∀ slot, u = .opened slot → slot < m.stack.size := by
  have valid := h.closures hb _ _ hk
  obtain ⟨f', hf', count⟩ := valid.count
  obtain rfl := Option.some.inj (hf.symm.trans hf')
  have inside : i.toNat < k.upvalues.size := count ▸ hi
  obtain ⟨u, hu⟩ := valid.upvalues _ (Array.getElem_mem inside)
  refine ⟨_, u, Array.getElem?_eq_getElem inside, hu, ?_⟩
  rintro slot rfl
  exact h.size ▸ ((h.tracked hb).allowed _ _ hu).lt

theorem leads_readUpvalue {k : Closure} {f : Function} {i : UInt8}
    (h : Holds h₀ W (call :: outer) σ m) (hb : m.heap.size ≤ UInt32.size)
    (hk : m.heap.closure? call.closure = some k) (hf : m.heap.function? k.function = some f)
    (hi : i.toNat < f.upvalueCount) : Leads h₀ W (call :: outer) (readUpvalue i) m (false :: σ) := by
  obtain ⟨r, u, hr, hu, inside⟩ := h.upvalue hb hk hf hi
  refine .bind (.upvalueRef h.frames hk hr (.bind (.get ?_)))
  rw [hu]
  cases u with
  | opened slot => exact .bind (.slot (inside slot rfl) fun v _ => leads_push h v)
  | closed v => exact leads_push h v

theorem leads_assignUpvalue {k : Closure} {f : Function} {i : UInt8}
    (h : Holds h₀ W (call :: outer) (false :: σ) m) (hb : m.heap.size ≤ UInt32.size)
    (hk : m.heap.closure? call.closure = some k) (hf : m.heap.function? k.function = some f)
    (hi : i.toNat < f.upvalueCount)
    (hW : ∀ r v', W' r v' → (k.upvalues[i.toNat]? = some r ∧ m.stack.back? = some v') ∨
      (k.upvalues[i.toNat]? ≠ some r ∧ W r v')) :
    Leads h₀ W' (call :: outer) (assignUpvalue i) m (false :: σ) := by
  obtain ⟨r, u, hr, hu, inside⟩ := h.upvalue hb hk hf hi
  refine .bind (.upvalueRef h.frames hk hr (.bind (.peek h.room fun v hv => .bind (.get ?_))))
  have last : m.stack.back? = some v := by rwa [Array.back?]
  rw [hu]
  cases u with
  | opened slot =>
    refine .setSlot (inside slot rfl) (h.setSlot (inside slot rfl) fun _ r' v' w => ?_)
    obtain ⟨e, hv'⟩ | ⟨ne, old⟩ := hW r' v' w
    · obtain rfl := Option.some.inj (hr.symm.trans e)
      exact .inl ⟨hu, Option.some.inj (hv'.symm.trans last)⟩
    · exact .inr ⟨fun hu' => ne ((h.tracked hb).unique hu hu' ▸ hr), old⟩
  | closed old =>
    refine .modify ⟨h.frames, h.size, h.hosts, h.kept.trans (Heap.kept_set hu),
      Nat.le_trans h.grown (Nat.le_of_eq (Heap.size_set ..).symm), fun _ => ?_, fun _ => ?_,
      fun _ r' v' w => ?_⟩
    · exact (h.closures hb).kept (Heap.kept_set hu) fun r k hk =>
        .inl ((Heap.closure?_set hu).symm.trans hk)
    · refine (h.tracked hb).congr fun r' slot => ?_
      rw [Heap.upvalue?_set hu]
      split
      next e => subst e; simp [hu]
      next => rfl
    · obtain ⟨e, hv'⟩ | ⟨ne, old⟩ := hW r' v' w
      · obtain rfl := Option.some.inj (hr.symm.trans e)
        obtain rfl := Option.some.inj (hv'.symm.trans last)
        rw [content, Heap.upvalue?_set hu, if_pos rfl]
      · have e : r ≠ r' := fun e => ne (e ▸ hr)
        exact (content_congr ((Heap.upvalue?_set hu).trans (if_neg e))).trans (h.contents hb old)

theorem closeUpvalues_eq (m : Machine) (least : Nat) : m.closeUpvalues least =
    { m with heap := (closeFrom least m.stack m.heap m.openUpvalues).1
             openUpvalues := (closeFrom least m.stack m.heap m.openUpvalues).2 } := rfl

/-- Slots are taken from the stack once their upvalues are closed. -/
theorem Holds.close {τ : Shape} (h : Holds h₀ W fs (τ ++ σ) m) :
    Holds h₀ W fs σ { m.closeUpvalues σ.length with stack := m.stack.shrink σ.length } := by
  rw [closeUpvalues_eq]
  have size := h.size
  rw [List.length_append] at size
  obtain ⟨kept, same, closures⟩ :=
    closeFrom_kept σ.length m.stack m.openUpvalues m.heap
  refine ⟨h.frames, by rw [Array.size_shrink]; omega, h.hosts, h.kept.trans kept,
    Nat.le_trans h.grown (Nat.le_of_eq same.symm), fun hb => ?_, fun hb => ?_, fun hb r v w => ?_⟩
  · exact (h.closures (same ▸ hb)).kept kept fun r k hk => .inl ((closures r).symm.trans hk)
  · exact (Tracked.close m.stack (h.tracked (same ▸ hb))).1
  · exact (Tracked.close m.stack (h.tracked (same ▸ hb))).2 (fun i hi => getElem?_shrink hi)
      (h.contents (same ▸ hb) w)

theorem leads_closeTop {b : Bool} (h : Holds h₀ W fs (b :: σ) m) :
    Leads h₀ W fs closeTop m σ := by
  have size := h.size
  rw [List.length_cons] at size
  have least : m.stack.size - 1 = σ.length := by omega
  refine .bind (.modify (.bind (.pop (by rw [closeUpvalues_eq]; simp only; omega) fun v _ => .pure ?_)))
  have h' := h.close (τ := [b])
  rw [← least, Array.shrink_eq_take, Array.take, Array.extract_eq_pop rfl] at h'
  exact h'

/-- The innermost call ends. Its callee and its locals are dropped. -/
theorem ends_endCall (h : Holds h₀ W (call :: outer) (false :: (σ ++ ρ)) m)
    (base : call.base = ρ.length) :
    Ends endCall m (fun _ m' => (outer = [] ∧ Holds h₀ W [] ρ m') ∨
      (outer ≠ [] ∧ Holds h₀ W outer (false :: ρ) m')) (Stopped h₀ W) := by
  refine leads_pop h fun v m' _ h => .bind (.frame h.frames (.bind (.modify (.bind (.truncate
    (.bind (.get ?_)))))))
  have h' : Holds h₀ W outer ρ { m' with
      frames := outer
      heap := (closeFrom ρ.length m'.stack m'.heap m'.openUpvalues).1
      openUpvalues := (closeFrom ρ.length m'.stack m'.heap m'.openUpvalues).2
      stack := m'.stack.shrink ρ.length } := by
    have c := h.close
    rw [closeUpvalues_eq] at c
    exact ⟨rfl, c.size, c.hosts, c.kept, c.grown, c.closures, c.tracked, c.contents⟩
  have tail : m'.frames.tail = outer := by rw [h.frames]; rfl
  rw [closeUpvalues_eq, tail, base]
  dsimp only
  cases outer with
  | nil => exact .pure (.inl ⟨rfl, h'⟩)
  | cons frame outer => exact (leads_push h' v).imp (fun _ _ h => .inr ⟨List.cons_ne_nil _ _, h⟩) fun _ _ h => h

end Captured

section Calls

variable {call : Frame} {outer : List Frame}

/-- A call of a closure begins, or is refused. -/
theorem ends_callClosure {r : Ref} {k : Closure} {f : Function} {n : Nat}
    (h : Holds h₀ W fs (temporaries (n + 1) ++ σ) m) (hk : m.heap.closure? r = some k)
    (hf : m.heap.function? k.function = some f) :
    Ends (callClosure r n) m (fun _ m' => f.arity = n ∧ m'.heap = m.heap ∧
      Holds h₀ W (⟨r, k.function, 0, σ.length⟩ :: fs) (temporaries (f.arity + 1) ++ σ) m')
      (Stopped h₀ W) := by
  have size := h.size
  rw [List.length_append, Shape.length_temporaries] at size
  refine .bind (.get ?_)
  dsimp only
  rw [hk]
  simp only [hf, Option.elim_some]
  split
  next => exact .fail (h.stopped trivial)
  next arity =>
    obtain rfl : n = f.arity := by simpa using arity
    refine .bind (.get ?_)
    split
    · have base : m.stack.size - f.arity - 1 = σ.length := by omega
      refine .modify ⟨rfl, rfl, ⟨?_, h.size, h.hosts, h.kept, h.grown, h.closures, h.tracked,
        h.contents⟩⟩
      rw [base, h.frames]
    · exact .fail (h.stopped trivial)

theorem answer_bind {α β : Type} {x : Answer α} {f : α → Answer β} {b : β}
    (h : x >>= f = .ok b) : ∃ a, x = .ok a ∧ f a = .ok b := by
  cases x with
  | error e => cases h
  | ok a => exact ⟨a, rfl, h⟩

/-- A native of the machine may put a string on the heap. -/
theorem call_heap {b : Builtin} {w w' : World} {heap heap' : Heap} {argument v : Value}
    (h : b.call w heap argument = .ok (v, w', heap')) :
    heap' = heap ∨ ∃ text, heap' = (heap.intern text).1 := by
  cases b with
  | clock | random =>
    cases h
    exact .inl rfl
  | sleep | fileExists | least | greatest | seed =>
    obtain ⟨_, -, h⟩ := answer_bind h
    cases h
    exact .inl rfl
  | readFile =>
    obtain ⟨path, -, h⟩ := answer_bind h
    dsimp only at h
    split at h
    next content _ =>
      cases h
      exact .inr ⟨content, rfl⟩
    next =>
      cases h
      exact .inl rfl
  | length =>
    simp only [Builtin.call] at h
    split at h
    next =>
      cases h
      exact .inl rfl
    next =>
      obtain ⟨_, -, h⟩ := answer_bind h
      cases h
      exact .inl rfl
  | exit =>
    obtain ⟨_, -, h⟩ := answer_bind h
    cases h

/-- There is no text to read, at the next look at the files and at any later one. -/
structure World.Textless (w : World) : Prop where
  next : ∀ path text, w.files path ≠ .text text
  later : ∀ n o, w.changes n = some o → ∀ path text, o.files path ≠ .text text

theorem World.Textless.turn {w : World} (h : w.Textless) : w.turn.Textless where
  next := by
    cases changed : w.changes w.looks with
    | none =>
      rw [World.turn, changed]
      exact h.next
    | some o =>
      rw [World.turn, changed]
      exact h.later w.looks o changed
  later := h.later

/-- No native writes a file. -/
theorem textless_call {b : Builtin} {w w' : World} {heap heap' : Heap} {argument v : Value}
    (h : b.call w heap argument = .ok (v, w', heap')) (none : w.Textless) : w'.Textless := by
  cases b with
  | clock =>
    cases h
    exact none.turn
  | random =>
    cases h
    exact ⟨none.next, none.later⟩
  | seed =>
    obtain ⟨_, -, h⟩ := answer_bind h
    cases h
    exact ⟨none.next, none.later⟩
  | fileExists =>
    obtain ⟨_, -, h⟩ := answer_bind h
    cases h
    exact none.turn
  | sleep | least | greatest =>
    obtain ⟨_, -, h⟩ := answer_bind h
    cases h
    exact none
  | readFile =>
    obtain ⟨path, -, h⟩ := answer_bind h
    dsimp only at h
    split at h <;> cases h <;> exact none.turn
  | length =>
    simp only [Builtin.call] at h
    split at h
    next =>
      cases h
      exact none
    next =>
      obtain ⟨_, -, h⟩ := answer_bind h
      cases h
      exact none
  | exit =>
    obtain ⟨_, -, h⟩ := answer_bind h
    cases h

/-- An answer that is no fault of the stack. -/
def OfArguments {α : Type} (x : Answer α) : Prop :=
  ∀ f, x = .error (.fault f) → f ≠ .stackUnderflow

namespace OfArguments

variable {α β : Type}

theorem ok (a : α) : OfArguments (.ok a : Answer α) := fun _ h => by cases h

theorem refuse {f : Fault} (hf : f ≠ .stackUnderflow) : OfArguments (refuse f : Answer α) :=
  fun _ h => by
    cases h
    exact hf

theorem bind {x : Answer α} {f : α → Answer β} (hx : OfArguments x) (hf : ∀ a, OfArguments (f a)) :
    OfArguments (x >>= f) := by
  cases x with
  | error e =>
    intro f h
    cases h
    exact hx f rfl
  | ok a => exact hf a

variable (native : String) (heap : Heap)

theorem number (v : Value) : OfArguments (numberArgument native heap v) := by
  unfold numberArgument
  split
  · exact ok _
  · exact refuse (by simp)

theorem string (v : Value) : OfArguments (stringArgument native heap v) := by
  unfold stringArgument
  split
  · exact ok _
  · exact refuse (by simp)

theorem array (v : Value) : OfArguments (arrayArgument native heap v) := by
  unfold arrayArgument
  split
  · exact ok _
  · exact refuse (by simp)

theorem numbers (vs : List Value) : OfArguments (numbers native heap vs) := by
  induction vs with
  | nil => exact ok _
  | cons v vs ih => exact (number native heap v).bind fun _ => ih.bind fun _ => ok _

theorem extreme (pick : Float → Float → Float) (v : Value) :
    OfArguments (extreme native pick heap v) := by
  refine (array native heap v).bind fun xs => (numbers native heap _).bind fun ys => ?_
  split
  · exact refuse (by simp)
  · exact ok _

end OfArguments

/-- A native of the machine refuses its arguments only. -/
theorem ofArguments_call (b : Builtin) (w : World) (heap : Heap) (argument : Value) :
    OfArguments (b.call w heap argument) := by
  cases b with
  | clock | random => exact .ok _
  | sleep | seed => exact .bind (.number _ _ _) fun _ => .ok _
  | fileExists => exact .bind (.string _ _ _) fun _ => .ok _
  | readFile =>
    refine .bind (.string _ _ _) fun _ => ?_
    split <;> exact .ok _
  | least | greatest => exact .bind (.extreme _ _ _ _) fun _ => .ok _
  | length =>
    simp only [Builtin.call]
    split
    · exact .ok _
    · exact .bind (.array _ _ _) fun _ => .ok _
  | exit => exact .bind (.number _ _ _) fun _ _ h => by cases h

theorem ends_runProcedure (h : Holds h₀ W fs σ m) (p : Procedure) (arguments : List Value) :
    Ends (runProcedure p arguments) m (fun _ m' => Holds h₀ W fs σ m') (Stopped h₀ W) := by
  unfold runProcedure
  cases p with
  | builtin b =>
    refine .bind (.get ?_)
    cases e : b.call m.world m.heap (arguments.headD .nil) with
    | ok r =>
      obtain ⟨v, world, heap⟩ := r
      refine .bind (.modify (.pure ?_))
      obtain rfl | ⟨text, rfl⟩ := call_heap e
      · exact ⟨h.frames, h.size, h.hosts, h.kept, h.grown, h.closures, h.tracked, h.contents⟩
      · have h' := h.intern text
        exact ⟨h'.frames, h'.size, h'.hosts, h'.kept, h'.grown, h'.closures, h'.tracked, h'.contents⟩
    | error refusal =>
      cases refusal with
      | fault f =>
        refine .fail (h.stopped ?_)
        have proper := ofArguments_call b m.world m.heap _ f e
        cases f with
        | stackUnderflow => exact absurd rfl proper
        | _ => trivial
      | exit code => exact .throw (h.stopped trivial)
  | host index =>
    refine .bind (.get ?_)
    rw [h.hosts]
    exact .fail (h.stopped trivial)

theorem ends_callNative {r : Ref} {n : Nat} {native : Native}
    (h : Holds h₀ W fs (temporaries (n + 1) ++ σ) m) (hr : m.heap.native? r = some native) :
    Leads h₀ W fs (callNative r n) m (false :: σ) := by
  have size := h.size
  rw [List.length_append, Shape.length_temporaries] at size
  refine .bind (.get ?_)
  rw [hr]
  dsimp only
  split
  · exact .fail (h.stopped trivial)
  · refine .bind (.get (.bind ((ends_runProcedure h _ _).imp (fun v m' h' => ?_) fun _ _ h => h)))
    have size' := h'.size
    rw [List.length_append, Shape.length_temporaries] at size'
    have start : m.stack.size - n - 1 = m'.stack.size - (n + 1) := by omega
    rw [start]
    exact .bind (.truncate (leads_push h'.shrink v))

/-- A call of a closure begins, or a native is called. -/
theorem ends_startCall {n : UInt8} (h : Holds h₀ W fs (temporaries (n.toNat + 1) ++ σ) m)
    (hb : m.heap.size ≤ UInt32.size) :
    Ends (startCall n) m (fun _ m' => Holds h₀ W fs (false :: σ) m' ∨
      ∃ r k f, m.heap.closure? r = some k ∧ m.heap.function? k.function = some f ∧
        m'.heap = m.heap ∧
        Holds h₀ W (⟨r, k.function, 0, σ.length⟩ :: fs) (temporaries (f.arity + 1) ++ σ) m')
      (Stopped h₀ W) := by
  have size := h.size
  rw [List.length_append, Shape.length_temporaries] at size
  refine .bind (.peek (by omega) fun callee _ => ?_)
  split
  next r _ =>
    refine .bind (.get ?_)
    dsimp only
    split
    next hc =>
      obtain ⟨k, hk⟩ := Option.isSome_iff_exists.1 hc
      obtain ⟨f, hf, -⟩ := (h.closures hb _ _ hk).count
      refine (ends_callClosure h hk hf).imp (fun _ m' ⟨_, e, h'⟩ => .inr ⟨r, k, f, hk, hf, e, h'⟩)
        fun _ _ h => h
    next =>
      split
      next hn =>
        obtain ⟨native, hr⟩ := Option.isSome_iff_exists.1 hn
        exact (ends_callNative h hr).imp (fun _ _ h => .inl h) fun _ _ h => h
      next => exact .fail (h.stopped trivial)
  next => exact .fail (h.stopped trivial)

end Calls
section Closures

/-- What a closure has for a capture, given the captured variables of the closure around it. -/
def CapturedAs (h : Heap) (base : Nat) (outer : Array Ref) (c : Capture) (r : Ref) : Prop :=
  if c.isLocal then h.upvalue? r = some (.opened (base + c.index.toNat))
  else outer[c.index.toNat]? = some r

theorem CapturedAs.extends {h h' : Heap} {base : Nat} {outer : Array Ref} {c : Capture} {r : Ref}
    (captured : CapturedAs h base outer c r) (e : h.Extends h') : CapturedAs h' base outer c r := by
  unfold CapturedAs at captured ⊢
  split
  next hl =>
    rw [if_pos hl] at captured
    exact Heap.upvalue?_eq_some.2 (e.get? (Heap.upvalue?_eq_some.1 captured))
  next hl => rwa [if_neg hl] at captured

/-- While the captures of a closure are read. The heap was `h` in front of the closure. -/
structure Gathers (h : Heap) (fs : List Frame) (stack : Array Value) (τ : Shape) (m : Machine) :
    Prop where
  frames : m.frames = fs
  stack : m.stack = stack
  hosts : m.hosts = #[]
  extends_ : h.Extends m.heap
  upvalues : ∀ r o, m.heap.get? r = some o → h.get? r = some o ∨ ∃ u, o = .upvalue u
  tracked : m.heap.size ≤ UInt32.size → Tracked m.heap m.openUpvalues τ

variable {h : Heap} {call : Frame} {outer : List Frame} {stack : Array Value} {τ : Shape}

theorem Gathers.captureSlot {fs : List Frame} {slot : Nat} (g : Gathers h fs stack τ m)
    (hs : Allows τ slot) :
    Gathers h fs stack τ (m.captureSlot slot).1 ∧
    m.heap.Extends (m.captureSlot slot).1.heap ∧
    ((m.captureSlot slot).1.heap.size ≤ UInt32.size →
      (m.captureSlot slot).1.heap.upvalue? (m.captureSlot slot).2 = some (.opened slot)) := by
  obtain ⟨e, new, spec⟩ := captureSlot_spec m slot
  have tracked (hb : (m.captureSlot slot).1.heap.size ≤ UInt32.size) :=
    spec (g.tracked (Nat.le_trans e.size_le hb)) hs hb
  obtain ⟨frames, stack, hosts⟩ := same_captureSlot m slot
  refine ⟨⟨frames.trans g.frames, stack.trans g.stack, hosts.trans g.hosts, g.extends_.trans e,
    fun r o ho => ?_, fun hb => (tracked hb).1⟩, e, fun hb => (tracked hb).2⟩
  obtain old | hu := new r o ho
  · exact g.upvalues r o old
  · exact .inr hu

theorem ends_captures (call : Frame) {f : Function} {k : Closure} (hf : h.function? call.function = some f)
    (hk : h.closure? call.closure = some k) {cs : List Capture}
    (locals : ∀ c ∈ cs, c.isLocal = true → Allows τ (call.base + c.index.toNat))
    (chained : ∀ c ∈ cs, c.isLocal = false → c.index.toNat < k.upvalues.size)
    (pre post : List UInt8) (code : f.chunk.code.toList =
      pre ++ (Instruction.stream (cs.map .capture) ++ post)) {refs : Array Ref} {ip : Nat}
    (at_ : ip = pre.length) (g : Gathers h ({ call with ip } :: outer) stack τ m) :
    Ends (captures call.base cs.length refs) m (fun refs' m' =>
      Gathers h ({ call with ip := ip + Instruction.width (cs.map .capture) } :: outer) stack τ m' ∧
      m.heap.Extends m'.heap ∧
      (m'.heap.size ≤ UInt32.size → ∃ news, refs' = refs ++ news ∧
        List.Forall₂ (CapturedAs m'.heap call.base k.upvalues) cs news.toList))
      fun _ _ => False := by
  induction cs generalizing pre refs ip m with
  | nil => exact ⟨g, .refl _, fun _ => ⟨#[], by simp, .nil⟩⟩
  | cons c cs ih =>
    have found := Chunk.read?_of_code (c := f.chunk) (i := .capture c) pre
      (Instruction.stream (cs.map .capture) ++ post) (by simpa using code)
    rw [← at_] at found
    have again {m₁ : Machine} {r : Ref} (g₁ : Gathers h ({ call with ip } :: outer) stack τ m₁)
        (e : m.heap.Extends m₁.heap) (hr : m₁.heap.size ≤ UInt32.size →
          CapturedAs m₁.heap call.base k.upvalues c r) :
        Ends (do setIp (ip + 3); captures call.base cs.length (refs.push r)) m₁ (fun refs' m' =>
          Gathers h ({ call with ip := ip + Instruction.width ((c :: cs).map .capture) } :: outer)
            stack τ m' ∧ m.heap.Extends m'.heap ∧
          (m'.heap.size ≤ UInt32.size → ∃ news, refs' = refs ++ news ∧
            List.Forall₂ (CapturedAs m'.heap call.base k.upvalues) (c :: cs) news.toList))
          fun _ _ => False := by
      refine .bind (.setIp g₁.frames ?_)
      have g₂ : Gathers h ({ call with ip := ip + 3 } :: outer) stack τ
          { m₁ with frames := { call with ip := ip + 3 } :: outer } :=
        ⟨rfl, g₁.stack, g₁.hosts, g₁.extends_, g₁.upvalues, g₁.tracked⟩
      refine (ih (fun c' hc => locals c' (List.mem_cons_of_mem _ hc))
        (fun c' hc => chained c' (List.mem_cons_of_mem _ hc))
        (pre ++ (Instruction.capture c).encode) (by simpa using code)
        (by simp [at_, Instruction.size, Instruction.operand, Operand.octets]) g₂).imp
        (fun refs' m' => ?_) fun _ _ => id
      rintro ⟨g', e', gathered⟩
      refine ⟨?_, e.trans e', fun hb => ?_⟩
      · rw [List.map_cons, Instruction.width_cons, ← Nat.add_assoc]
        exact g'
      · obtain ⟨news, rfl, each⟩ := gathered hb
        refine ⟨#[r] ++ news, by rw [← Array.append_assoc, Array.push_eq_append], ?_⟩
        rw [Array.toList_append]
        exact .cons ((hr (Nat.le_trans e'.size_le hb)).extends e') each
    rw [List.length_cons, captures]
    refine .bind (.frame g.frames (.bind (.chunk g.frames (g.extends_.function? hf) ?_)))
    dsimp only
    rw [found]
    dsimp only
    cases hl : c.isLocal with
    | true =>
      obtain ⟨g₁, e, hr⟩ := g.captureSlot (locals c List.mem_cons_self hl)
      refine .bind (.modifyGet (again g₁ e fun hb => ?_))
      rw [CapturedAs, if_pos hl]
      exact hr hb
    | false =>
      have inside := chained c List.mem_cons_self hl
      have hr := Array.getElem?_eq_getElem inside
      refine .bind (.upvalueRef g.frames ?_ hr (again g (.refl _) fun _ => ?_))
      · exact Heap.closure?_eq_some.2 (g.extends_.get? (Heap.closure?_eq_some.1 hk))
      · rw [CapturedAs, hl]
        exact hr

/-- A closure is made of the function in the pool. Its upvalues are what it captures. -/
theorem ends_makeClosure {f g : Function} {k : Closure} {r : Ref} {i : UInt8}
    {cs : List Capture} {self : Bool}
    (h : Holds h₀ W (call :: outer) σ m) (hf : m.heap.function? call.function = some f)
    (hk : m.heap.closure? call.closure = some k)
    (valid : m.heap.size ≤ UInt32.size → ∀ r ∈ k.upvalues, ∃ u, m.heap.upvalue? r = some u)
    (pool : f.chunk.constants[i.toNat]? = some (.object r)) (hg : m.heap.function? r = some g)
    (count : cs.length = g.upvalueCount) (sound : Sound m.heap r)
    (locals : ∀ c ∈ cs, c.isLocal = true → Allows (self :: σ) (call.base + c.index.toNat))
    (chained : ∀ c ∈ cs, c.isLocal = false → c.index.toNat < k.upvalues.size)
    (pre post : List UInt8)
    (code : f.chunk.code.toList = pre ++ (Instruction.stream (cs.map .capture) ++ post))
    (at_ : call.ip = pre.length) :
    Ends (makeClosure i) m (fun _ m' =>
      Holds h₀ W ({ call with ip := call.ip + Instruction.width (cs.map .capture) } :: outer)
        (self :: σ) m' ∧
      (m'.heap.size ≤ UInt32.size → ∃ r' refs, m'.stack.back? = some (.object r') ∧
        m'.heap.closure? r' = some ⟨r, refs⟩ ∧
        List.Forall₂ (CapturedAs m'.heap call.base k.upvalues) cs refs.toList))
      (Stopped h₀ W) := by
  have start : Gathers m.heap ({ call with ip := call.ip } :: outer) m.stack (self :: σ) m :=
    ⟨h.frames, rfl, h.hosts, .refl _, fun r o ho => .inl ho, fun hb =>
      (h.tracked hb).reshape fun slot hs => hs.append [self]⟩
  have size := h.size
  refine .bind (.constant h.frames hf pool (.bind (.get ?_)))
  rw [hg]
  refine .bind (.frame h.frames (.bind ?_))
  rw [← count]
  refine (ends_captures _ hf hk locals chained pre post code at_ start).imp (fun refs m₁ => ?_) fun _ _ => False.elim
  rintro ⟨g₁, -, gathered⟩
  let h₁ := (m₁.heap.allocate (.closure ⟨r, refs⟩)).1
  have e : m.heap.Extends h₁ := g₁.extends_.trans (m₁.heap.extends_allocate _)
  have grown (hb : h₁.size ≤ UInt32.size) : m₁.heap.size ≤ UInt32.size :=
    Nat.le_trans (m₁.heap.extends_allocate _).size_le hb
  have captured (hb : h₁.size ≤ UInt32.size) :
      List.Forall₂ (CapturedAs h₁ call.base k.upvalues) cs refs.toList := by
    obtain ⟨news, rfl, each⟩ := gathered (grown hb)
    rw [Array.empty_append]
    exact each.imp fun c r captured => captured.extends (m₁.heap.extends_allocate _)
  have old (hb : h₁.size ≤ UInt32.size) : m.heap.size ≤ UInt32.size := Nat.le_trans e.size_le hb
  have upvalues (hb : h₁.size ≤ UInt32.size) : ∀ r' ∈ refs, ∃ u, h₁.upvalue? r' = some u := by
    intro r' hr'
    obtain ⟨c, hc, cap⟩ := forall₂_mem_right (captured hb) (Array.mem_toList_iff.2 hr')
    unfold CapturedAs at cap
    split at cap
    · exact ⟨_, cap⟩
    · obtain ⟨u, hu⟩ := valid (old hb) r' (Array.mem_of_getElem? cap)
      exact ⟨u, Heap.upvalue?_eq_some.2 (e.get? (Heap.upvalue?_eq_some.1 hu))⟩
  have closures (hb : h₁.size ≤ UInt32.size) : Closures h₁ := by
    refine (h.closures (old hb)).kept e.kept fun r' k' hk' => ?_
    obtain ho | ⟨eq, -⟩ := Heap.get?_allocate_cases (Heap.closure?_eq_some.1 hk')
    · obtain ho | ⟨u, hu⟩ := g₁.upvalues r' _ ho
      · exact .inl (Heap.closure?_eq_some.2 ho)
      · cases hu
    · cases eq
      refine .inr ⟨sound.kept e.kept, ⟨g, e.function? hg, ?_⟩, upvalues hb⟩
      rw [← count, ← Array.length_toList, (captured hb).length_eq]
  have tracked (hb : h₁.size ≤ UInt32.size) : Tracked h₁ m₁.openUpvalues (self :: σ) :=
    (g₁.tracked (grown hb)).congr fun r' slot => by rw [upvalue?_allocate (by simp)]
  have contents {stack' : Array Value} (agree : ∀ slot < σ.length, stack'[slot]? = m.stack[slot]?)
      (hb : h₁.size ≤ UInt32.size) ⦃r' : Ref⦄ ⦃v : Value⦄ (w : W r' v) :
      content stack' h₁ r' = some v := by
    have before := h.contents (old hb) w
    have same : h₁.upvalue? r' = m.heap.upvalue? r' := by
      rw [content] at before
      split at before
      next hu => rw [hu]; exact Heap.upvalue?_eq_some.2 (e.get? (Heap.upvalue?_eq_some.1 hu))
      next hu => rw [hu]; exact Heap.upvalue?_eq_some.2 (e.get? (Heap.upvalue?_eq_some.1 hu))
      next => cases before
    rw [content_congr same]
    exact content_agree before fun slot hu => agree slot ((h.tracked (old hb)).allowed _ _ hu).lt
  refine .bind (.allocate (.push ⟨⟨g₁.frames, ?_, g₁.hosts, h.kept.trans e.kept,
    Nat.le_trans h.grown e.size_le, closures, tracked, contents fun slot lt => ?_⟩, fun hb => ?_⟩
    ⟨trivial, g₁.hosts, h.kept.trans e.kept, Nat.le_trans h.grown e.size_le, closures,
      fun hb => ⟨_, tracked hb⟩, contents fun slot lt => ?_⟩))
  · rw [Array.size_push, g₁.stack, size, List.length_cons]
  · rw [g₁.stack]
    exact Array.getElem?_push_lt (size ▸ lt) ▸ (Array.getElem?_eq_getElem _).symm
  · refine ⟨_, refs, Array.back?_push, ?_, captured hb⟩
    exact Heap.closure?_eq_some.2 ((Heap.Extends.refl _).get?_allocate hb)
  · exact congrArg (·[slot]?) g₁.stack

end Closures

end Machine
end StackScript
