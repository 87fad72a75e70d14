import StackScript.Proofs.Bytecode.Branch
import StackScript.Proofs.Semantics.Place

/-!
# StackScript.Proofs.Semantics.Operate

What the instructions of expressions do, apart from variables and calls.

* `Coded`: instructions at an offset of the code of a call.
* `Stands.drops`, `Stands.branches`, `Stands.jumps`, `Stands.loops`: steps without a counterpart in
  the evaluation.
* `Stands.literal`, `Stands.unary`, `Stands.binary`, `Stands.array`, `Stands.readElement`,
  `Stands.assignElement`: operations of the language.
-/

namespace StackScript
namespace Semantics

open Compile (UnaryOperator BinaryOperator unaryCode binaryCode)
open Instruction (width)
open Machine

/-- Instructions stand at an offset of the code of a call. -/
def Coded (A : Activation) (ip : Nat) (is : List Instruction) : Prop :=
  ∃ pre post, A.code = pre ++ (is ++ post) ∧ ip = width pre

namespace Coded

variable {A : Activation} {ip : Nat} {i : Instruction} {is js : List Instruction}

theorem left (c : Coded A ip (is ++ js)) : Coded A ip is := by
  obtain ⟨pre, post, e, at_⟩ := c
  exact ⟨pre, js ++ post, by rw [e, List.append_assoc], at_⟩

theorem right (c : Coded A ip (is ++ js)) : Coded A (ip + width is) js := by
  obtain ⟨pre, post, e, rfl⟩ := c
  exact ⟨pre ++ is, post, by rw [e, List.append_assoc, List.append_assoc],
    (Instruction.width_append _ _).symm⟩

theorem tail (c : Coded A ip (i :: is)) : Coded A (ip + i.size) is :=
  Coded.right (show Coded A ip ([i] ++ is) from c)

theorem at_ (c : Coded A ip (i :: is)) : ∃ pre post, A.code = pre ++ i :: post ∧ ip = width pre := by
  obtain ⟨pre, post, e, h⟩ := c
  exact ⟨pre, is ++ post, e, h⟩

end Coded

variable {H : Heap} {A : Activation} {τ : Ties} {s : Store} {ip : Nat} {ℓ : List (String × Nat)}
  {θ us : List Val} {u v : Val} {w : Value} {m : Machine} {is : List Instruction} {n : Nat}
  {nested : Bool}

section Jumps

theorem Stands.drops (st : Stands H A s ip ℓ (θ ++ [v]) m) (code : Coded A ip (.pop :: is)) :
    ∃ m', m.step = (.running, m') ∧ Stands H A s (ip + 1) ℓ θ m' := by
  obtain ⟨pre, post, code, at_⟩ := code.at_
  refine st.next code at_ fun τ m₁ r => ?_
  obtain ⟨stack, w, h, -, under⟩ := r.pop
  exact .bind (ends_pop_push h (.pure fun _ => ⟨τ, under⟩))

theorem Rests.jump (r : Rests H A τ s ip ℓ θ m) (ip' : Nat) :
    Ends (setIp ip') m (fun _ m' => m'.heap.size ≤ UInt32.size →
      ∃ τ, Rests H A τ s ip' ℓ θ m') fun _ _ => False :=
  .setIp r.frames fun _ => ⟨τ, r.move ip'⟩

theorem Stands.jumps {d : UInt16} (st : Stands H A s ip ℓ θ m) (code : Coded A ip (.jump d :: is)) :
    ∃ m', m.step = (.running, m') ∧ Stands H A s (ip + 3 + d.toNat) ℓ θ m' := by
  obtain ⟨pre, post, code, at_⟩ := code.at_
  exact st.next code at_ fun τ m₁ r => .bind (.frame r.frames (r.jump _))

/-- The value that decides stays on the stack. -/
theorem Stands.branches {d : UInt16} (st : Stands H A s ip ℓ (θ ++ [v]) m)
    (code : Coded A ip (.jumpIfFalse d :: is)) :
    ∃ m', m.step = (.running, m') ∧
      Stands H A s (if v.isFalsey then ip + 3 + d.toNat else ip + 3) ℓ (θ ++ [v]) m' := by
  obtain ⟨pre, post, code, at_⟩ := code.at_
  refine st.next code at_ fun τ m₁ r => ?_
  obtain ⟨stack, w, h, same, -⟩ := r.pop
  refine .bind (ends_peek_push h ?_)
  rw [same.isFalsey]
  split
  · exact .bind (.frame r.frames (r.jump _))
  · exact .pure fun _ => ⟨τ, r.toRests⟩

theorem Stands.loops {d : UInt16} {j : Nat} (st : Stands H A s ip ℓ θ m)
    (code : Coded A ip (.loop d :: is)) (back : ip + 3 = j + d.toNat) :
    ∃ m', m.step = (.running, m') ∧ Stands H A s j ℓ θ m' := by
  obtain ⟨pre, post, code, at_⟩ := code.at_
  refine st.next code at_ fun τ m₁ r => .bind (.frame r.frames ?_)
  have e : (A.frame (ip + 3)).ip = j + d.toNat := back
  have inside : d.toNat ≤ (A.frame (ip + 3)).ip := e ▸ Nat.le_add_left _ _
  rw [show ip + (Instruction.loop d).size = ip + 3 from rfl, if_pos inside, e, Nat.add_sub_cancel]
  exact r.jump j

end Jumps

section Values

/-- A constant is put on the stack. -/
theorem Stands.literal {k : UInt8} (st : Stands H A s ip ℓ θ m) (code : Coded A ip (.constant k :: is))
    (hk : A.body.chunk.constants[k.toNat]? = some w)
    (same : ∀ (τ : Ties) h, H.Kept h → Same τ h v w) :
    Follows n (Semantics.put machineLimits (A.site nested ℓ θ) v s) m fun v s' m' =>
      Stands H A s' (ip + 2) ℓ (θ ++ [v]) m' := by
  obtain ⟨pre, post, code, at_⟩ := code.at_
  refine (st.push code at_ fun τ m₁ r => ⟨w, same τ _ r.agrees.backed.kept, fun Q E h => ?_⟩).imp
    fun v s' m' ⟨hv, hs, st⟩ => hv ▸ hs ▸ st
  exact .bind (.constant r.frames r.function hk h)

/-- A value that an instruction stands for is put on the stack. -/
theorem Stands.pushes {i : Instruction} (st : Stands H A s ip ℓ θ m)
    (code : Coded A ip (i :: is)) (same : ∀ (τ : Ties) h, Same τ h v w)
    (push : execute i = Machine.push w) :
    Follows n (Semantics.put machineLimits (A.site nested ℓ θ) v s) m fun v s' m' =>
      Stands H A s' (ip + i.size) ℓ (θ ++ [v]) m' := by
  obtain ⟨pre, post, code, at_⟩ := code.at_
  exact (st.push code at_ fun τ m₁ r => ⟨w, same τ _, fun Q E h => push ▸ h⟩).imp
    fun v s' m' ⟨hv, hs, st⟩ => hv ▸ hs ▸ st

theorem Stands.unary {σ : Site} (st : Stands H A s ip ℓ (θ ++ [v]) m) (op : UnaryOperator)
    (code : Coded A ip [unaryCode op]) (calls : σ.calls = A.calls) :
    Follows n (σ.lift (applyUnary op v) s) m fun v s' m' =>
      Stands H A s' (ip + width [unaryCode op]) ℓ (θ ++ [v]) m' := by
  obtain ⟨pre, post, code, at_⟩ := code.at_
  exact (st.compute code at_ calls fun τ m₁ r => r.unary op).imp fun v s' m' ⟨hs, st⟩ => hs ▸ st

theorem lift_bind {σ : Site} {α β : Type} (x : Except Fault α) (f : α → Except Fault β) :
    σ.lift (x >>= f) = (do σ.lift (f (← σ.lift x)) : Eval β) := by
  cases x <;> rfl

/-- An operator of a single instruction. -/
theorem Stands.operator {σ : Site} {i : Instruction} {r : Except Fault Val}
    (st : Stands H A s ip ℓ (θ ++ [u] ++ [v]) m) (code : Coded A ip (i :: is))
    (calls : σ.calls = A.calls) (one : i.size = 1)
    (h : ∀ {τ : Ties} {ip : Nat} {m : Machine}, Fetched H A τ s ip ℓ (θ ++ [u] ++ [v]) m →
      Computes H A s ip ℓ θ r (execute i) m) :
    Follows n (σ.lift r s) m fun v s' m' => Stands H A s' (ip + 1) ℓ (θ ++ [v]) m' := by
  obtain ⟨pre, post, code, at_⟩ := code.at_
  exact (st.compute code at_ calls fun τ m₁ r => h r).imp fun v s' m' ⟨hs, st⟩ => hs ▸ one ▸ st

/-- An operator whose result is negated. -/
theorem Stands.negated {σ : Site} {i : Instruction} {r : Except Fault Val}
    (st : Stands H A s ip ℓ (θ ++ [u] ++ [v]) m) (code : Coded A ip [i, .negation])
    (calls : σ.calls = A.calls) (one : i.size = 1)
    (h : ∀ {τ : Ties} {ip : Nat} {m : Machine}, Fetched H A τ s ip ℓ (θ ++ [u] ++ [v]) m →
      Computes H A s ip ℓ θ r (execute i) m) :
    Follows n (σ.lift (r >>= applyUnary .negation) s) m fun v s' m' =>
      Stands H A s' (ip + 2) ℓ (θ ++ [v]) m' := by
  rw [lift_bind]
  refine (st.operator code calls one h).bind fun v s' m' st => ?_
  have code := code.tail
  rw [one] at code
  exact st.unary .negation code calls

theorem negated_equal (u v : Val) : applyBinary .notEqual u v =
    (Except.ok (.bool (u.equals v)) >>= applyUnary .negation) := rfl

theorem negated_numeric (f : Float → Float → Bool) (u v : Val) :
    numeric (fun x y => .bool !(f x y)) u v =
      (numeric (fun x y => .bool (f x y)) u v >>= applyUnary .negation) := by
  cases u with
  | number x => cases v <;> rfl
  | _ => rfl

theorem Stands.binary {op : BinaryOperator} {σ : Site} (st : Stands H A s ip ℓ (θ ++ [u] ++ [v]) m)
    (code : Coded A ip (binaryCode op)) (calls : σ.calls = A.calls) :
    Follows n (σ.lift (applyBinary op u v) s) m fun v s' m' =>
      Stands H A s' (ip + width (binaryCode op)) ℓ (θ ++ [v]) m' := by
  cases op with
  | equal => exact st.operator code calls rfl fun r => r.equal
  | notEqual =>
    rw [negated_equal]
    exact st.negated code calls rfl fun r => r.equal
  | greater => exact st.operator code calls rfl fun r => r.numbers fun _ _ => .bool _
  | greaterEqual =>
    rw [applyBinary, negated_numeric]
    exact st.negated code calls rfl fun r => r.numbers fun _ _ => .bool _
  | less => exact st.operator code calls rfl fun r => r.numbers fun _ _ => .bool _
  | lessEqual =>
    rw [applyBinary, negated_numeric]
    exact st.negated code calls rfl fun r => r.numbers fun _ _ => .bool _
  | add => exact st.operator code calls rfl fun r => r.sum
  | subtract => exact st.operator code calls rfl fun r => r.numbers fun _ _ => .number _
  | multiply => exact st.operator code calls rfl fun r => r.numbers fun _ _ => .number _
  | divide => exact st.operator code calls rfl fun r => r.numbers fun _ _ => .number _

end Values

section Arrays

/-- An array and the position of an element are what they are in the language. -/
theorem ends_element {t : Table Value} {a b : Value} {Q : Ref × Nat → Machine → Prop}
    {E : Stop → Machine → Prop} (d : Backed H τ s t m.heap) (ha : Same τ m.heap u a)
    (hb : Same τ m.heap v b)
    (found : ∀ id k r, s.element u v = .ok (id, k) → τ.arrays[id]? = some r → Q (r, k) m)
    (failed : ∀ f, s.element u v = .error f → E (.fault f) m) : Ends (element a b) m Q E := by
  have other (no : ∀ id, u ≠ .array id) : s.element u v = .error .notAnArray := by
    cases u <;> first | rfl | exact (no _ rfl).elim
  have elements := ha.elements? d
  cases a with
  | object r =>
    refine .bind (.get ?_)
    obtain ⟨id, ys, rfl, hys, each⟩ | ⟨no, hys⟩ := elements
    · have hr : τ.arrays[id]? = some r := by
        cases ha with
        | array hr => exact hr
      have hys : m.heap.array? r = some ys := hys
      rw [hys]
      have size : ys.size = (s.elements id).size := by
        rw [← Array.length_toList, ← Array.length_toList, each.length_eq]
      cases hb with
      | number x =>
        dsimp only
        rw [Store.element, ← size] at found failed
        cases hp : position ys.size x with
        | ok i =>
          rw [hp] at found
          exact .pure (found id i r rfl hr)
        | error e =>
          rw [hp] at failed
          exact .fail (failed _ rfl)
      | _ => exact .fail (failed _ rfl)
    · have hys : m.heap.array? r = none := hys
      rw [hys]
      exact .fail (failed _ (other no))
  | _ =>
    refine .fail (failed _ (other ?_))
    rintro id rfl
    cases ha

theorem Store.element_get {h : Heap} {t : Table Value} (d : Backed H τ s t h) {id : Nat} {r : Ref}
    (hr : τ.arrays[id]? = some r) (k : Nat) :
    Same τ h ((s.elements id)[k]?.getD .nil) ((h.array? r).bind (·[k]?) |>.getD .nil) := by
  obtain ⟨xs, ys, hxs, hys, each⟩ := d.stored.array hr
  rw [Store.elements, hxs, Option.getD_some, hys, Option.bind_some]
  cases hx : xs[k]? with
  | none =>
    have : ys[k]? = none := by
      rw [Array.getElem?_eq_none_iff] at hx ⊢
      rw [← Array.length_toList, ← each.length_eq]
      exact hx
    rw [this]
    exact .nil
  | some x =>
    rw [← Array.getElem?_toList] at hx
    obtain ⟨y, hy, same⟩ := forall₂_getElem? each hx
    rw [Array.getElem?_toList] at hy
    rw [hy]
    exact same

/-- An element of an array is read. -/
theorem Stands.readElement {σ : Site} (st : Stands H A s ip ℓ (θ ++ [u] ++ [v]) m)
    (code : Coded A ip [.getIndex]) (calls : σ.calls = A.calls) :
    Follows n ((do
      let (id, k) ← σ.lift ((← get).element u v)
      return ((← get).elements id)[k]?.getD .nil : Eval Val) s) m fun v s' m' =>
        Stands H A s' (ip + 1) ℓ (θ ++ [v]) m' := by
  obtain ⟨pre, post, code, at_⟩ := code.at_
  rw [bind_apply]
  show Follows n ((do
      let (id, k) ← σ.lift (s.element u v)
      return ((← get).elements id)[k]?.getD .nil : Eval Val) s) m _
  cases he : s.element u v with
  | ok p =>
    refine (st.advance code at_ (fun τ m₁ r => ?_) fun m' st' => .pure st').less (Nat.le_succ n)
    obtain ⟨st, a, b, h, ha, hb, under⟩ := r.pop₂
    refine .bind (ends_pop_push h (.bind (ends_pop_push rfl (.bind (ends_element
      r.agrees.backed ha hb (fun id k r' e hr => ?_) fun f e => ?_)))))
    · rw [he] at e
      cases e
      refine .bind (.get (ends_push (r.replace₂ h) fun _ => ⟨τ, under.push ?_⟩))
      exact Store.element_get r.agrees.backed hr k
    · cases he.symm.trans e
  | error f =>
    refine st.fails code at_ calls fun τ m₁ r => ?_
    obtain ⟨st, a, b, h, ha, hb, -⟩ := r.pop₂
    refine .bind (ends_pop_push h (.bind (ends_pop_push rfl (.bind (ends_element
      r.agrees.backed ha hb (fun id k r' e hr => ?_) fun f' e => ?_)))))
    · cases he.symm.trans e
    · cases he.symm.trans e
      exact ⟨rfl, r.agrees.output⟩

/-- An element of an array is assigned. -/
theorem Rests.setElement (r : Rests H A τ s ip ℓ θ m) {id k : Nat} {x : Ref}
    (hx : τ.arrays[id]? = some x) (same : Same τ m.heap v w) (fits : m.heap.size ≤ UInt32.size) :
    Rests H A τ { s with arrays := s.arrays.modify id (·.setIfInBounds k v) } ip ℓ θ
      { m with heap := m.heap.setElement x k w } :=
  have ⟨later, backed⟩ := r.agrees.backed.setElement (i := k) hx same fits
  ⟨r.frames, r.later.trans later,
    r.agrees.celled.later later rfl (fun _ => upvalue?_setElement), backed, r.agrees.output,
    r.agrees.world⟩

theorem Stands.assignElement {σ : Site} {x : Val}
    (st : Stands H A s ip ℓ (θ ++ [u] ++ [v] ++ [x]) m) (code : Coded A ip [.setIndex])
    (calls : σ.calls = A.calls) :
    Follows n ((do
      let (id, k) ← σ.lift ((← get).element u v)
      modify fun s => { s with arrays := s.arrays.modify id (·.setIfInBounds k x) }
      return x : Eval Val) s) m fun v s' m' => Stands H A s' (ip + 1) ℓ (θ ++ [v]) m' := by
  obtain ⟨pre, post, code, at_⟩ := code.at_
  rw [bind_apply]
  show Follows n ((do
      let (id, k) ← σ.lift (s.element u v)
      modify fun s => { s with arrays := s.arrays.modify id (·.setIfInBounds k x) }
      return x : Eval Val) s) m _
  have ends {τ : Ties} {m₁ : Machine} {Q : Unit → Machine → Prop} {E : Stop → Machine → Prop}
      (r : Fetched H A τ s (ip + 1) ℓ (θ ++ [u] ++ [v] ++ [x]) m₁)
      (found : ∀ id k y st w, s.element u v = .ok (id, k) → τ.arrays[id]? = some y →
        Same τ m₁.heap x w → st.size < stackLimit →
        Rests H A τ s (ip + 1) ℓ θ { m₁ with stack := st } →
        Ends (Machine.push w) { m₁ with stack := st, heap := m₁.heap.setElement y k w } Q E)
      (failed : ∀ f m', s.element u v = .error f → m'.output = m₁.output → E (.fault f) m') :
      Ends (execute .setIndex) m₁ Q E := by
    obtain ⟨st, w, h, same, lower⟩ := r.pop
    obtain ⟨st', a, b, h', ha, hb, under⟩ := lower.pop₂
    have h' : st = (st'.push a).push b := h'
    refine .bind (ends_pop_push h (.bind (ends_pop_push h' (.bind (ends_pop_push rfl (.bind
      (ends_element r.agrees.backed ha hb (fun id k y e hy => ?_) fun f e => failed f _ e rfl)))))))
    refine .bind (.modify (found id k y st' w e hy same ?_ under))
    have room := r.room
    rw [h, h', Array.size_push, Array.size_push, Array.size_push] at room
    omega
  cases he : s.element u v with
  | ok p =>
    refine (st.advance code at_ (fun τ m₁ r => ends r (fun id k y stack w e hy same room under => ?_)
      fun f m' e _ => ?_) fun m' st' => .pure st').less (Nat.le_succ n)
    · cases he.symm.trans e
      refine ends_push room fun _ => ⟨τ, ?_⟩
      have later := r.agrees.backed.setElement (i := k) hy same r.fits
      exact (under.setElement hy same r.fits).push (same.later later.1)
    · cases he.symm.trans e
  | error f =>
    refine st.fails code at_ calls fun τ m₁ r => ends r (fun id k y st w e _ _ _ _ => ?_)
      fun f' m' e output => ?_
    · cases he.symm.trans e
    · cases he.symm.trans e
      exact ⟨rfl, output.trans r.agrees.output⟩

theorem newArray_apply (us : List Val) : Semantics.newArray us s =
    some (.ok (.array s.arrays.size), { s with arrays := s.arrays.push us.toArray }) := rfl

/-- The values on top of the stack become the elements of a new array. -/
theorem Rests.newArray (r : Rests H A τ s ip ℓ θ m) {ws : List Value}
    (same : List.Forall₂ (Same τ m.heap) us ws)
    (fits : (m.heap.allocate (.array ws.toArray)).1.size ≤ UInt32.size) :
    ∃ τ', Same τ' (m.heap.allocate (.array ws.toArray)).1 (.array s.arrays.size)
        (.object (m.heap.allocate (.array ws.toArray)).2) ∧
      Rests H A τ' { s with arrays := s.arrays.push us.toArray } ip ℓ θ
        { m with heap := (m.heap.allocate (.array ws.toArray)).1 } :=
  have ⟨later, made, backed⟩ := r.agrees.backed.newArray (show List.Forall₂ _ us ws.toArray.toList from same) fits
  ⟨_, made, r.frames, r.later.trans later,
    r.agrees.celled.later later rfl (fun _ => upvalue?_allocate nofun), backed, r.agrees.output,
    r.agrees.world⟩

theorem Stands.array (st : Stands H A s ip ℓ (θ ++ us) m) (few : us.length ≤ Compile.countLimit)
    (code : Coded A ip [.array us.length.toUInt8]) :
    Follows n ((do Semantics.put machineLimits (A.site nested ℓ θ) (← newArray us) : Eval Val) s) m
      fun v s' m' => Stands H A s' (ip + 2) ℓ (θ ++ [v]) m' := by
  obtain ⟨pre, post, code, at_⟩ := code.at_
  rw [bind_apply, newArray_apply]
  refine (st.put code at_ (by simp) fun τ m₁ r => ?_).imp fun v s' m' ⟨hv, hs, st⟩ => hv ▸ hs ▸ st
  obtain ⟨stack, ws, h, same, size, under⟩ := r.pops
  have count : us.length.toUInt8.toNat = ws.length := by
    have : us.length < 256 := Nat.lt_succ_of_le few
    rw [← same.length_eq]
    simpa using this
  have start : m₁.stack.size - us.length.toUInt8.toNat = stack.size := by
    rw [count, h]
    simp
  have elements : m₁.stack.extract stack.size m₁.stack.size = ws.toArray := by
    rw [h]
    simp
  have lower : m₁.stack.shrink stack.size = stack := by
    rw [h]
    apply Array.ext'
    simp
  refine .bind (.get ?_)
  rw [if_pos (by rw [count, h]; simp), start]
  dsimp only
  rw [elements]
  refine .bind (.truncate (.bind (.allocate ?_)))
  rw [lower]
  refine ends_push_cases (fun room => ⟨size ▸ room, fun fits => ?_⟩)
    fun full => ⟨size ▸ full, rfl, r.agrees.output⟩
  obtain ⟨τ', made, under⟩ := under.newArray same fits
  exact ⟨τ', under.push made⟩

end Arrays

end Semantics
end StackScript
