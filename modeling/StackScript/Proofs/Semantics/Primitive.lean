import StackScript.Proofs.Semantics.Stand

/-!
# StackScript.Proofs.Semantics.Primitive

What instructions do that put values on the stack and take them from it.

* `Rests.push`, `Rests.pop`: the values above the variables of a call.
* `Computes`: an instruction does what an operation of the language does.
* `Stands.put`, `Stands.compute`: a step that follows an evaluation.
-/

namespace StackScript
namespace Semantics

open Instruction (width stream)
open Machine

/-- The limits of a machine. -/
def machineLimits : Limits := ⟨some stackLimit, some frameLimit⟩

variable {H : Heap} {A : Activation} {τ : Ties} {s s' : Store} {ip ip' : Nat}
  {ℓ : List (String × Nat)} {us θ : List Val} {u v : Val} {w : Value} {m : Machine}

section Stack

variable {Q : Value → Machine → Prop} {R : Unit → Machine → Prop} {E : Stop → Machine → Prop}
  {st : Array Value} {a b : Value}

theorem ends_pop_push (h : m.stack = st.push w) (q : Q w { m with stack := st }) :
    Ends pop m Q E := by
  refine .pop (by simp [h]) fun v hv => ?_
  rw [h, Array.back?_push] at hv
  cases hv
  rwa [h, Array.pop_push]

theorem ends_peek_push (h : m.stack = st.push w) (q : Q w m) : Ends (peek 0) m Q E := by
  refine .peek (by simp [h]) fun v hv => ?_
  rw [h, Array.size_push, Nat.sub_zero, Nat.add_sub_cancel, Array.getElem?_push_size] at hv
  cases hv
  exact q

theorem ends_peek_push₂ (h : m.stack = (st.push a).push b) (q : Q a m) : Ends (peek 1) m Q E := by
  refine .peek (by simp [h]) fun v hv => ?_
  have e : (st.push a).size + 1 - 1 - 1 = st.size := by simp
  rw [h, Array.size_push, e, Array.getElem?_push_lt (by simp)] at hv
  simp at hv
  exact hv ▸ q

theorem ends_drop₂ (h : m.stack = (st.push a).push b) (q : R () { m with stack := st }) :
    Ends (drop 2) m R E := by
  refine .drop ?_
  have e : m.stack.shrink (m.stack.size - 2) = st := by
    rw [h]
    apply Array.ext'
    simp
  rwa [e]

/-- A value is pushed, or there is no place for it. -/
theorem ends_push_cases (fits : m.stack.size < stackLimit → R () { m with stack := m.stack.push w })
    (full : ¬m.stack.size < stackLimit → E (.fault .stackOverflow) m) : Ends (push w) m R E := by
  refine .bind (.get ?_)
  split
  next room => exact .modify (fits room)
  next room => exact .fail (full room)

end Stack

namespace Rests

theorem push (r : Rests H A τ s ip ℓ θ m) (e : Same τ m.heap v w) :
    Rests H A τ s ip ℓ (θ ++ [v]) { m with stack := m.stack.push w } where
  frames := r.frames
  later := r.later
  agrees := by
    have celled := r.agrees.celled.push (x := .value v) rfl e
    rw [← Activation.slots_push] at celled
    exact ⟨celled, r.agrees.backed, r.agrees.output, r.agrees.world⟩

/-- The values above the variables, or some of them, are taken from the stack. -/
theorem pops (r : Rests H A τ s ip ℓ (θ ++ us) m) :
    ∃ st ws, m.stack = st ++ List.toArray ws ∧ List.Forall₂ (Same τ m.heap) us ws ∧
      st.size = (A.slots ℓ θ).length ∧ Rests H A τ s ip ℓ θ { m with stack := st } := by
  have celled := r.agrees.celled
  rw [Activation.slots_append] at celled
  obtain ⟨st, ws, e, same, size, celled⟩ := celled.split fun x hx => by
    obtain ⟨_, -, rfl⟩ := List.mem_map.1 hx
    rfl
  exact ⟨st, ws, e, (List.forall₂_map_left_iff (f := Slot.value)).1 same, size, r.frames, r.later,
    celled, r.agrees.backed, r.agrees.output, r.agrees.world⟩

theorem pop (r : Rests H A τ s ip ℓ (θ ++ [v]) m) :
    ∃ st w, m.stack = st.push w ∧ Same τ m.heap v w ∧
      Rests H A τ s ip ℓ θ { m with stack := st } := by
  obtain ⟨st, ws, e, same, -, r⟩ := r.pops
  obtain ⟨w, ws, one, rest, rfl⟩ := List.forall₂_cons_left_iff.1 same
  cases rest
  exact ⟨st, w, by simpa using e, one, r⟩

theorem pop₂ (r : Rests H A τ s ip ℓ (θ ++ [u] ++ [v]) m) :
    ∃ st a b, m.stack = (st.push a).push b ∧ Same τ m.heap u a ∧ Same τ m.heap v b ∧
      Rests H A τ s ip ℓ θ { m with stack := st } := by
  obtain ⟨st, b, e, hb, r⟩ := r.pop
  obtain ⟨st', a, e', ha, r⟩ := r.pop
  have e' : st = st'.push a := e'
  exact ⟨st', a, b, by rw [e, e'], ha, hb, r⟩

/-- Nothing but upvalues, which are as they were, has changed on the heap. -/
theorem calm (r : Rests H A τ s ip ℓ θ m) {h : Heap} (calm : m.heap.Calm h)
    (up : ∀ r, h.upvalue? r = m.heap.upvalue? r) (fits : h.size ≤ UInt32.size) :
    Rests H A τ s ip ℓ θ { m with heap := h } where
  frames := r.frames
  later := r.later.trans ⟨.refl τ, calm.kept⟩
  agrees := ⟨r.agrees.celled.later ⟨.refl τ, calm.kept⟩ rfl up,
    r.agrees.backed.calm calm (.refl τ) rfl rfl fits, r.agrees.output, r.agrees.world⟩

end Rests

/-- A computation of the machine puts the result of an operation in the place of its operands. -/
def Computes (H : Heap) (A : Activation) (s : Store) (ip : Nat) (ℓ : List (String × Nat))
    (θ : List Val) (r : Except Fault Val) (x : Exec Unit) (m : Machine) : Prop :=
  match r with
  | .ok v => Ends x m (fun _ m' => m'.heap.size ≤ UInt32.size →
      ∃ τ, Rests H A τ s ip ℓ (θ ++ [v]) m') fun _ _ => False
  | .error f => Ends x m (fun _ _ => False) fun e m' => e = .fault f ∧ m'.output = s.output

namespace Fetched

theorem replace (r : Fetched H A τ s ip ℓ (θ ++ [u]) m) {st : Array Value} {a : Value}
    (h : m.stack = st.push a) : st.size < stackLimit := by
  have room := r.room
  rw [h, Array.size_push] at room
  exact room

theorem replace₂ (r : Fetched H A τ s ip ℓ θ m) {st : Array Value} {a b : Value}
    (h : m.stack = (st.push a).push b) : st.size < stackLimit := by
  have room := r.room
  rw [h, Array.size_push, Array.size_push] at room
  omega

theorem unary (r : Fetched H A τ s ip ℓ (θ ++ [v]) m) (op : Compile.UnaryOperator) :
    Computes H A s ip ℓ θ (applyUnary op v) (execute (Compile.unaryCode op)) m := by
  obtain ⟨st, w, h, same, under⟩ := r.pop
  cases op with
  | negation =>
    refine .bind (ends_pop_push h (ends_push (r.replace h) fun _ => ⟨τ, ?_⟩))
    rw [same.isFalsey]
    exact under.push (.bool _)
  | negate =>
    cases same with
    | number x =>
      exact .bind (ends_peek_push h (.bind (ends_pop_push h (ends_push (r.replace h) fun _ =>
        ⟨τ, under.push (.number _)⟩))))
    | _ => exact .bind (ends_peek_push h (.fail ⟨rfl, r.agrees.output⟩))

theorem numbers (r : Fetched H A τ s ip ℓ (θ ++ [u] ++ [v]) m) {f : Float → Float → Val}
    {g : Float → Float → Value} (same : ∀ x y, Same τ m.heap (f x y) (g x y)) :
    Computes H A s ip ℓ θ (Semantics.numeric f u v)
      (do let (x, y) ← popNumbers; push (g x y)) m := by
  obtain ⟨st, a, b, h, ha, hb, under⟩ := r.pop₂
  have refused (no : ∀ x y, ¬(a = .number x ∧ b = .number y)) :
      Ends (do let (x, y) ← popNumbers; push (g x y)) m (fun _ _ => False)
        fun e m' => e = .fault .notNumbers ∧ m'.output = s.output := by
    refine .bind (.bind (ends_peek_push₂ h (.bind (ends_peek_push h ?_))))
    split
    next x y => exact (no x y ⟨rfl, rfl⟩).elim
    next => exact .fail ⟨rfl, r.agrees.output⟩
  cases ha with
  | number x =>
    cases hb with
    | number y =>
      refine .bind (.bind (ends_peek_push₂ h (.bind (ends_peek_push h
        (.bind (ends_drop₂ h (.pure ?_)))))))
      exact ends_push (r.replace₂ h) fun _ => ⟨τ, under.push (same x y)⟩
    | _ => exact refused fun _ _ h => nomatch h
  | _ => exact refused fun _ _ h => nomatch h

theorem equal (r : Fetched H A τ s ip ℓ (θ ++ [u] ++ [v]) m) :
    Computes H A s ip ℓ θ (.ok (.bool (u.equals v))) compareEqual m := by
  obtain ⟨st, a, b, h, ha, hb, under⟩ := r.pop₂
  refine .bind (ends_pop_push h (.bind (ends_pop_push rfl (ends_push (r.replace₂ h) fun _ =>
    ⟨τ, ?_⟩))))
  rw [ha.equals r.agrees.backed hb]
  exact under.push (.bool _)

theorem sum (r : Fetched H A τ s ip ℓ (θ ++ [u] ++ [v]) m) :
    Computes H A s ip ℓ θ (Semantics.add u v) addOperands m := by
  obtain ⟨st, a, b, h, ha, hb, under⟩ := r.pop₂
  have texts := ha.text? r.agrees.backed
  have texts' := hb.text? r.agrees.backed
  have refused (no : ∀ x y, ¬(a = .number x ∧ b = .number y))
      (no' : m.heap.text? a = none ∨ m.heap.text? b = none) :
      Ends addOperands m (fun _ _ => False)
        fun e m' => e = .fault .notAddable ∧ m'.output = s.output := by
    refine .bind (ends_peek_push₂ h (.bind (ends_peek_push h (.bind ?_))))
    unfold Machine.sum
    split
    next x y => exact (no x y ⟨rfl, rfl⟩).elim
    next =>
      refine .bind (.get ?_)
      dsimp only
      split
      next s' t' hs ht =>
        obtain no' | no' := no'
        · rw [no'] at hs
          cases hs
        · rw [no'] at ht
          cases ht
      next => exact .fail ⟨rfl, r.agrees.output⟩
  cases ha with
  | number x =>
    cases hb with
    | number y =>
      refine .bind (ends_peek_push₂ h (.bind (ends_peek_push h (.bind (.pure
        (.bind (ends_drop₂ h (ends_push (r.replace₂ h) fun _ => ⟨τ, ?_⟩))))))))
      exact under.push (.number _)
    | _ => exact refused (fun _ _ h => nomatch h) (.inl texts)
  | string hr =>
    cases hb with
    | string hr' =>
      refine .bind (ends_peek_push₂ h (.bind (ends_peek_push h (.bind ?_))))
      refine .bind (.get ?_)
      dsimp only
      rw [texts, texts']
      refine .bind (.intern (.pure (.bind (ends_drop₂ h (ends_push (r.replace₂ h) fun fits =>
        ⟨τ, ?_⟩)))))
      have calm := under.calm (.intern m.heap _) (fun _ => upvalue?_intern) fits
      exact calm.push (.string (Heap.string?_intern m.heap _ fits))
    | _ => exact refused (fun _ _ h => nomatch h) (.inr texts')
  | _ => exact refused (fun _ _ h => nomatch h) (.inl texts)

end Fetched

section Steps

variable {n : Nat} {i : Instruction} {pre post : List Instruction} {σ : Site}
  {α : Type} {Q : α → Store → Machine → Prop} {r : Option (Except Halt α × Store)}

/-- The machine is one step further. -/
theorem Stands.advance {B : Activation} {ℓ' : List (String × Nat)} (st : Stands H A s ip ℓ us m)
    (code : A.code = pre ++ i :: post) (at_ : ip = width pre)
    (h : ∀ τ m₁, Fetched H A τ s (ip + i.size) ℓ us m₁ →
      Ends (execute i) m₁ (fun _ m' => m'.heap.size ≤ UInt32.size →
        ∃ τ', Rests H B τ' s' ip' ℓ' θ m') fun _ _ => False)
    (f : ∀ m', Stands H B s' ip' ℓ' θ m' → Follows n r m' Q) : Follows (n + 1) r m Q := by
  obtain ⟨m', step, st'⟩ := st.next code at_ h
  exact (f m' st').step step

/-- The next step ends the run with a fault. -/
theorem Stands.fails {f : Fault} (st : Stands H A s ip ℓ us m) (code : A.code = pre ++ i :: post)
    (at_ : ip = width pre) (calls : σ.calls = A.calls)
    (h : ∀ τ m₁, Fetched H A τ s (ip + i.size) ℓ us m₁ →
      Ends (execute i) m₁ (fun _ _ => False) fun e m' => e = .fault f ∧ m'.output = s'.output) :
    Follows n ((σ.fail f : Eval α) s') m Q :=
  ⟨0, m, rfl, calls ▸ st.fault code at_ h⟩

/-- The next step does what an operation does. -/
theorem Stands.compute {o : Except Fault Val} (st : Stands H A s ip ℓ us m)
    (code : A.code = pre ++ i :: post) (at_ : ip = width pre) (calls : σ.calls = A.calls)
    (h : ∀ τ m₁, Fetched H A τ s (ip + i.size) ℓ us m₁ →
      Computes H A s (ip + i.size) ℓ θ o (execute i) m₁) :
    Follows n (σ.lift o s) m fun v s' m' => s' = s ∧ Stands H A s (ip + i.size) ℓ (θ ++ [v]) m' := by
  cases o with
  | ok v => exact (st.advance code at_ h fun m' st' => .pure ⟨rfl, st'⟩).less (Nat.le_succ n)
  | error f => exact st.fails code at_ calls h

/-- The next step puts a value on the stack, perhaps in the place of others, and may do more. -/
theorem Stands.place {nested : Bool} {s₁ : Store} {ℓ' : List (String × Nat)} {ws : List Val}
    (st : Stands H A s ip ℓ us m) (code : A.code = pre ++ i :: post)
    (at_ : ip = width pre) (fewer : θ.length ≤ us.length)
    (h : ∀ τ m₁, Fetched H A τ s (ip + i.size) ℓ us m₁ →
      Ends (execute i) m₁
        (fun _ m' => (A.slots ℓ θ).length < stackLimit ∧ (m'.heap.size ≤ UInt32.size →
          ∃ τ', Rests H A τ' s₁ ip' ℓ' ws m'))
        fun e m' => ¬(A.slots ℓ θ).length < stackLimit ∧ e = .fault .stackOverflow ∧
          m'.output = s'.output) :
    Follows n (Semantics.put machineLimits (A.site nested ℓ θ) v s') m fun v' s'' m' =>
      v' = v ∧ s'' = s' ∧ Stands H A s₁ ip' ℓ' ws m' := by
  have decided : machineLimits.places.all ((A.site nested ℓ θ).height < ·) =
      decide ((A.slots ℓ θ).length < stackLimit) := by
    rw [← Activation.height_site nested]
    rfl
  unfold Semantics.put
  rw [decided]
  by_cases room : (A.slots ℓ θ).length < stackLimit
  · rw [decide_eq_true room, if_pos rfl]
    refine (st.advance code at_ (fun τ m₁ r => (h τ m₁ r).imp (fun _ _ q => q.2) ?_)
      fun m' st' => .pure ⟨rfl, rfl, st'⟩).less (Nat.le_succ n)
    exact fun _ _ no => no.1 room
  · rw [decide_eq_false room, if_neg Bool.false_ne_true]
    obtain ⟨τ, r⟩ := st.rests
    have lower : (A.slots ℓ θ).length ≤ (A.slots ℓ us).length := by
      rw [Activation.length_slots, Activation.length_slots]
      omega
    have full : m.stack.size = stackLimit := by
      have := st.live.room
      have := r.size
      omega
    exact ⟨0, m, rfl, st.overflows code at_ full fun τ m₁ r _ =>
      (h τ m₁ r).imp (fun _ _ q => room q.1) fun _ _ => And.right⟩

/-- The next step puts a value on the stack, perhaps in the place of others. -/
theorem Stands.put {nested : Bool} (st : Stands H A s ip ℓ us m) (code : A.code = pre ++ i :: post)
    (at_ : ip = width pre) (fewer : θ.length ≤ us.length)
    (h : ∀ τ m₁, Fetched H A τ s (ip + i.size) ℓ us m₁ →
      Ends (execute i) m₁
        (fun _ m' => (A.slots ℓ θ).length < stackLimit ∧ (m'.heap.size ≤ UInt32.size →
          ∃ τ', Rests H A τ' s' (ip + i.size) ℓ (θ ++ [v]) m'))
        fun e m' => ¬(A.slots ℓ θ).length < stackLimit ∧ e = .fault .stackOverflow ∧
          m'.output = s'.output) :
    Follows n (Semantics.put machineLimits (A.site nested ℓ θ) v s') m fun v' s'' m' =>
      v' = v ∧ s'' = s' ∧ Stands H A s' (ip + i.size) ℓ (θ ++ [v]) m' :=
  st.place code at_ fewer h

/-- The next step pushes a value. -/
theorem Stands.push {nested : Bool} (st : Stands H A s ip ℓ θ m)
    (code : A.code = pre ++ i :: post) (at_ : ip = width pre)
    (h : ∀ τ m₁, Fetched H A τ s (ip + i.size) ℓ θ m₁ → ∃ w, Same τ m₁.heap v w ∧
      ∀ Q E, Ends (Machine.push w) m₁ Q E → Ends (execute i) m₁ Q E) :
    Follows n (Semantics.put machineLimits (A.site nested ℓ θ) v s) m fun v' s' m' =>
      v' = v ∧ s' = s ∧ Stands H A s (ip + i.size) ℓ (θ ++ [v]) m' := by
  refine st.put code at_ (Nat.le_refl _) fun τ m₁ r => ?_
  obtain ⟨w, same, pushes⟩ := h τ m₁ r
  refine pushes _ _ (ends_push_cases (fun room => ⟨r.size ▸ room, fun _ => ⟨τ, r.toRests.push same⟩⟩)
    fun full => ⟨r.size ▸ full, rfl, r.agrees.output⟩)

end Steps

end Semantics
end StackScript
