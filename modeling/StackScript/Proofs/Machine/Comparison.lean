import StackScript.Proofs.Compile.Operation
import StackScript.Proofs.Machine.Outcome
import StackScript.Proofs.Machine.Seam
import StackScript.Proofs.Numeral.Ordering

/-!
# StackScript.Proofs.Machine.Comparison

What the code of a comparison leaves on the stack for two doubles.

* `BinaryOperator.holds`: the truth of a comparison by IEEE 754, where nothing but `!=` holds
  of NaN.
* `BinaryOperator.leaves`: what the code leaves. `<=` and `>=` negate the opposite comparison, so
  they leave true for NaN.
* `compile_compares`: every comparison of a source that compiles leaves that value.
-/

namespace StackScript

namespace Compile
namespace BinaryOperator

/-- Whether an operator compares its operands. -/
def compares : BinaryOperator → Bool
  | .equal | .notEqual | .greater | .greaterEqual | .less | .lessEqual => true
  | _ => false

/-- Whether a comparison is true of doubles that are ordered so; none if one of them is NaN. -/
def holds (op : BinaryOperator) (o : Option Ordering) : Bool :=
  match op with
  | .equal => o == some .eq
  | .notEqual => o != some .eq
  | .greater => o == some .gt
  | .greaterEqual => o == some .gt || o == some .eq
  | .less => o == some .lt
  | .lessEqual => o == some .lt || o == some .eq
  | _ => false

/-- What the code of a comparison leaves. -/
def leaves (op : BinaryOperator) (o : Option Ordering) : Bool :=
  match op, o with
  | .greaterEqual, none | .lessEqual, none => true
  | op, o => op.holds o

theorem leaves_greaterEqual (o : Option Ordering) :
    greaterEqual.leaves o = !(o == some .lt) := by
  cases o with
  | none => rfl
  | some o => cases o <;> rfl

theorem leaves_lessEqual (o : Option Ordering) : lessEqual.leaves o = !(o == some .gt) := by
  cases o with
  | none => rfl
  | some o => cases o <;> rfl

section Laws

open Numeral (ordering?)

variable (x y : Float)

/-- The truth is left, except for `<=` and `>=` of NaN. -/
theorem leaves_eq_holds (op : BinaryOperator)
    (h : x.isNaN ∨ y.isNaN → op ≠ .lessEqual ∧ op ≠ .greaterEqual) :
    op.leaves (ordering? x y) = op.holds (ordering? x y) := by
  cases ho : ordering? x y with
  | none =>
    obtain ⟨hl, hg⟩ := h ((Numeral.ordering?_eq_none x y).1 ho)
    cases op <;> first | rfl | contradiction
  | some o => cases op <;> rfl

theorem leaves_of_isNaN (h : x.isNaN ∨ y.isNaN) :
    lessEqual.leaves (ordering? x y) = true ∧ greaterEqual.leaves (ordering? x y) = true := by
  rw [(Numeral.ordering?_eq_none x y).2 h]
  exact ⟨rfl, rfl⟩

theorem leaves_lessEqual_eq_or (h : ¬(x.isNaN ∨ y.isNaN)) : lessEqual.leaves (ordering? x y) =
    (less.leaves (ordering? x y) || equal.leaves (ordering? x y)) := by
  cases ho : ordering? x y with
  | none => exact absurd ((Numeral.ordering?_eq_none x y).1 ho) h
  | some o => cases o <;> rfl

theorem leaves_greaterEqual_swap :
    greaterEqual.leaves (ordering? x y) = lessEqual.leaves (ordering? y x) := by
  rw [Numeral.ordering?_swap x y]
  cases ordering? x y with
  | none => rfl
  | some o => cases o <;> rfl

end Laws

end BinaryOperator
end Compile

namespace Machine

open Compile (BinaryOperator)
open Numeral (ordering?)
open Instruction (width stream)

/-- The innermost call has moved on, and the stack has changed. -/
def onward (m : Machine) (octets : Nat) (stack : Array Value) : Machine :=
  { m with frames := m.frames.modifyHead fun call => { call with ip := call.ip + octets }, stack }

section Steps

variable {m : Machine} {f : Function} {ip : Nat} {s : Array Value} {i : Instruction}

theorem current?_onward (h : m.current? = some (f, ip)) (octets : Nat) (stack : Array Value) :
    (m.onward octets stack).current? = some (f, ip + octets) := by
  unfold current? at h ⊢
  cases hm : m.frames with
  | nil =>
    rw [hm] at h
    cases h
  | cons call outer =>
    rw [hm] at h
    obtain ⟨g, hg, e⟩ := Option.map_eq_some_iff.1 h
    cases e
    simp [onward, hm, hg]

theorem onward_onward (m : Machine) (a b : Nat) (s t : Array Value) :
    (m.onward a s).onward b t = m.onward (a + b) t := by
  unfold onward
  cases m.frames with
  | nil => rfl
  | cons call outer => simp [Nat.add_assoc]

/-- An instruction that does nothing but change the stack. -/
theorem step_onward (h : m.current? = some (f, ip)) (next : f.chunk.read? ip = some i)
    (ends : ∀ frames, Ends (execute i) { m with frames }
      (fun _ m' => m' = { m with frames, stack := s }) fun _ _ => False) :
    m.step = (.running, m.onward i.size s) := by
  unfold current? at h
  cases hm : m.frames with
  | nil =>
    rw [hm] at h
    cases h
  | cons call outer =>
    rw [hm] at h
    obtain ⟨g, hg, e⟩ := Option.map_eq_some_iff.1 h
    cases e
    have moved : m.onward i.size s =
        { m with frames := { call with ip := call.ip + i.size } :: outer, stack := s } := by
      simp [onward, hm]
    rw [moved]
    exact step_of_ends hm rfl (.bind (.fetch hm hg next (ends _)))

variable {x y : Float}

theorem ends_popPushed {v : Value} (hs : m.stack = s.push v) :
    Ends pop m (fun w m' => w = v ∧ m' = { m with stack := s }) fun _ _ => False := by
  refine .pop (by simp [hs]) fun w hw => ?_
  rw [hs, Array.back?_push] at hw
  exact ⟨(Option.some.inj hw).symm, by simp [hs]⟩

theorem ends_comparison (g : Float → Float → Bool)
    (hs : m.stack = (s.push (.number x)).push (.number y)) (room : s.size < stackLimit) :
    Ends (comparison g) m (fun _ m' => m' = { m with stack := s.push (.bool (g x y)) })
      fun _ _ => False := by
  refine .bind (.bind (.peek (by simp [hs]) fun v hv => .bind (.peek (by simp [hs]) fun w hw => ?_)))
  obtain rfl : Value.number x = v := by simpa [hs, Array.getElem_push] using hv
  obtain rfl : Value.number y = w := by simpa [hs, Array.getElem_push] using hw
  have dropped : m.stack.shrink (m.stack.size - 2) = s := by
    simp [hs]
  refine .bind (.drop (.pure (ends_push ?_ ?_)))
  · rwa [dropped]
  · rw [dropped]

theorem ends_compareEqual (hs : m.stack = (s.push (.number x)).push (.number y))
    (room : s.size < stackLimit) :
    Ends compareEqual m (fun _ m' => m' = { m with stack := s.push (.bool (x == y)) })
      fun _ _ => False := by
  refine .bind ((ends_popPushed hs).imp ?_ fun _ _ => id)
  rintro _ _ ⟨rfl, rfl⟩
  refine .bind ((ends_popPushed rfl).imp ?_ fun _ _ => id)
  rintro _ _ ⟨rfl, rfl⟩
  exact ends_push room rfl

theorem ends_invertTruth {b : Bool} (hs : m.stack = s.push (.bool b)) (room : s.size < stackLimit) :
    Ends invertTruth m (fun _ m' => m' = { m with stack := s.push (.bool !b) })
      fun _ _ => False := by
  refine .bind ((ends_popPushed hs).imp ?_ fun _ _ => id)
  rintro _ _ ⟨rfl, rfl⟩
  cases b <;> exact ends_push room rfl

end Steps

section Runs

variable {m : Machine} {f : Function} {s : Array Value} {x y : Float}
  {pre post : List Instruction}

theorem read?_of_stream {i : Instruction} (pre post : List Instruction)
    (code : f.chunk.code.toList = stream (pre ++ i :: post)) :
    f.chunk.read? (width pre) = some i := by
  rw [← Instruction.length_stream]
  exact Chunk.read?_of_code _ (stream post) (by simp [code])

theorem run_single {i : Instruction} {b : Bool}
    (one : m.step = (.running, m.onward i.size (s.push (.bool b)))) :
    m.run 1 = (.running, m.onward (width [i]) (s.push (.bool b))) := by
  rw [run_of_running (by rw [one]), one]
  rfl

theorem run_negated {i : Instruction} {b : Bool} (h : m.current? = some (f, width pre))
    (code : f.chunk.code.toList = stream (pre ++ i :: .negation :: post))
    (room : s.size < stackLimit)
    (one : m.step = (.running, m.onward i.size (s.push (.bool b)))) :
    m.run 2 = (.running, m.onward (width [i, .negation]) (s.push (.bool !b))) := by
  have next := read?_of_stream (f := f) (pre ++ [i]) post (by simpa using code)
  have moved := current?_onward h i.size (s.push (.bool b))
  rw [Instruction.width_append] at next
  have two := step_onward moved next fun _ => ends_invertTruth rfl room
  rw [run_of_running (by rw [one]), one, run_of_running (by rw [two]), two, onward_onward]
  rfl

/-- The code of a comparison of two doubles leaves a truth value in their place. -/
theorem run_comparison {op : BinaryOperator} (compares : op.compares = true)
    (code : f.chunk.code.toList = stream (pre ++ (op.code ++ post)))
    (h : m.current? = some (f, width pre))
    (hs : m.stack = (s.push (.number x)).push (.number y)) (room : s.size < stackLimit) :
    m.run op.code.length =
      (.running, m.onward (width op.code) (s.push (.bool (op.leaves (ordering? x y))))) := by
  have equal (next : f.chunk.read? (width pre) = some .equal) :=
    Numeral.beq_eq x y ▸ step_onward h next fun _ => ends_compareEqual hs room
  have less (next : f.chunk.read? (width pre) = some .less) :=
    Numeral.lt_eq x y ▸
      step_onward h next fun _ => ends_comparison (fun a b => decide (a < b)) hs room
  have greater (next : f.chunk.read? (width pre) = some .greater) :=
    Numeral.gt_eq x y ▸
      step_onward h next fun _ => ends_comparison (fun a b => decide (b < a)) hs room
  cases op with
  | equal => exact run_single (equal (read?_of_stream _ _ code))
  | notEqual => exact run_negated h code room (equal (read?_of_stream _ _ code))
  | greater => exact run_single (greater (read?_of_stream _ _ code))
  | greaterEqual =>
    rw [BinaryOperator.leaves_greaterEqual]
    exact run_negated h code room (less (read?_of_stream _ _ code))
  | less => exact run_single (less (read?_of_stream _ _ code))
  | lessEqual =>
    rw [BinaryOperator.leaves_lessEqual]
    exact run_negated h code room (greater (read?_of_stream _ _ code))
  | add | subtract | multiply | divide => cases compares

end Runs

/-- A function on the heap compares: behind the code of both operands stands code that puts a truth
value in the place of any two doubles that these have left on the stack. -/
def Compares (h : Heap) (t : Syntax.Operation) : Prop :=
  ∃ f pre is js post c c₁ c₂, .function f ∈ h.objects ∧
    Compile.ExprCode c t.left is c₁ ∧ Compile.ExprCode c₁ t.right js c₂ ∧
    f.chunk.code.toList = stream (pre ++ (is ++ (js ++ (t.operator.code ++ post)))) ∧
    ∀ (m : Machine) (s : Array Value) (x y : Float),
      m.current? = some (f, width (pre ++ (is ++ js))) →
      m.stack = (s.push (.number x)).push (.number y) → s.size < stackLimit →
      m.run t.operator.code.length = (.running, m.onward (width t.operator.code)
        (s.push (.bool (t.operator.leaves (ordering? x y)))))

end Machine

namespace Compile

open Numeral (ordering?)

/-- In the code of a source, every comparison of doubles leaves the truth by IEEE 754, except that
`<=` and `>=` leave true for NaN. -/
theorem compile_compares {source : String} {heap : Heap} {r : Ref}
    (hc : (compile source heap).result = .ok r) :
    (∃ a, Syntax.Parses source a ∧ ∀ t ∈ a.operations, t.operator.compares = true →
      Machine.Compares (compile source heap).heap t) ∧
    (∀ (op : BinaryOperator) (x y : Float),
      (x.isNaN ∨ y.isNaN → op ≠ .lessEqual ∧ op ≠ .greaterEqual) →
      op.leaves (ordering? x y) = op.holds (ordering? x y)) ∧
    ∀ x y : Float,
      (x.isNaN ∨ y.isNaN → BinaryOperator.lessEqual.leaves (ordering? x y) = true ∧
        BinaryOperator.greaterEqual.leaves (ordering? x y) = true) ∧
      (¬(x.isNaN ∨ y.isNaN) → BinaryOperator.lessEqual.leaves (ordering? x y) =
        (BinaryOperator.less.leaves (ordering? x y) ||
          BinaryOperator.equal.leaves (ordering? x y))) ∧
      BinaryOperator.greaterEqual.leaves (ordering? x y) =
        BinaryOperator.lessEqual.leaves (ordering? y x) := by
  refine ⟨?_, fun op x y => op.leaves_eq_holds x y, fun x y => ⟨BinaryOperator.leaves_of_isNaN x y,
    BinaryOperator.leaves_lessEqual_eq_or x y, BinaryOperator.leaves_greaterEqual_swap x y⟩⟩
  obtain ⟨a, parses, emits⟩ := compile_emits hc
  refine ⟨a, parses, fun t ht compares => ?_⟩
  obtain ⟨f, _, hf, code, pre, is, js, post, c, c₁, c₂, left, right, rfl⟩ := emits t ht
  refine ⟨f, pre, is, js, post, c, c₁, c₂, hf, left, right, code, ?_⟩
  intro m s x y at_ hs room
  exact Machine.run_comparison compares (by simpa using code) at_ hs room

/-- Two comparisons, one of them in a function. -/
theorem compile_compares_nested :
    let source := "fun f(x) { return x <= 1; } print f(0) == true;"
    (compile source .empty).result = .ok ⟨2⟩ ∧
      ∃ a, Syntax.Parses source a ∧ ∀ t ∈ a.operations, t.operator.compares = true →
        Machine.Compares (compile source .empty).heap t := by
  intro source
  have compiles : (compile source .empty).result = .ok ⟨2⟩ := by decide +kernel
  exact ⟨compiles, (compile_compares compiles).1⟩

/-- NaN is not at most one, but the code of `<=` leaves true. -/
theorem lessEqual_leaves_true :
    let m := ((Machine.new .unlimited .still).interpret 4 "0 / 0 <= 1;").2
    m.stack.pop.back? = some (.number (0 / 0)) ∧ m.stack.back? = some (.number 1) ∧
      (m.run BinaryOperator.lessEqual.code.length).2.stack.back? = some (.bool true) ∧
      BinaryOperator.lessEqual.holds (ordering? (0 / 0) 1) = false := by
  decide +kernel

end Compile
end StackScript
