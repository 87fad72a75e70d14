import StackScript.Compile.State
import StackScript.Proofs.Bytecode.Stream

/-!
# StackScript.Proofs.Bytecode.Branch

The code of operators and of what jumps, put together from code without open ends.

* `unaryCode`, `binaryCode`: what follows the operands of an operator.
* `andCode`, `orCode`: what follows the left operand.
* `choiceCode`: what follows the condition of an `if`.
* `Loop`: the parts of a loop, and its code.
-/

namespace StackScript
namespace Compile

open Instruction

theorem width_pop_cons (is : List Instruction) : width (.pop :: is) = width is + 1 :=
  Nat.add_comm ..

def unaryCode : UnaryOperator → Instruction
  | .negate => .negate
  | .negation => .negation

/-- `a != b` is `!(a == b)`, `a >= b` is `!(a < b)` and `a <= b` is `!(a > b)`. -/
def binaryCode : BinaryOperator → List Instruction
  | .equal => [.equal]
  | .notEqual => [.equal, .negation]
  | .greater => [.greater]
  | .greaterEqual => [.less, .negation]
  | .less => [.less]
  | .lessEqual => [.greater, .negation]
  | .add => [.add]
  | .subtract => [.subtract]
  | .multiply => [.multiply]
  | .divide => [.divide]

theorem code_unary (op : UnaryOperator) : op.code = unaryCode op := by
  cases op <;> rfl

theorem code_binary (op : BinaryOperator) : op.code = binaryCode op := by
  cases op <;> rfl

def andCode (js : List Instruction) : List Instruction :=
  .jumpIfFalse (width js + 1).toUInt16 :: .pop :: js

def orCode (js : List Instruction) : List Instruction :=
  .jumpIfFalse 3 :: .jump (width js + 1).toUInt16 :: .pop :: js

def choiceCode (js ks : List Instruction) : List Instruction :=
  .jumpIfFalse (width js + 4).toUInt16 :: .pop ::
    (js ++ .jump (width ks + 1).toUInt16 :: .pop :: ks)

structure Loop where
  condition : Option (List Instruction)
  /-- what runs between two rounds -/
  step : Option (List Instruction)
  body : List Instruction

namespace Loop

variable (l : Loop)

def stepWidth : Nat := l.step.elim 0 fun is => width is + 7

/-- How far the loop is left over. -/
def exit : Nat := l.stepWidth + (width l.body + 4)

/-- The condition, and the way out if it does not hold. -/
def head : List Instruction :=
  l.condition.elim [] fun is => is ++ [.jumpIfFalse l.exit.toUInt16, .pop]

/-- How far the step goes back to the condition. -/
def again : Nat := width l.head + l.stepWidth

/-- The step stands in front of the body, which jumps over it first. -/
def stepCode : List Instruction :=
  l.step.elim [] fun is =>
    .jump (width is + 4).toUInt16 :: (is ++ [.pop, .loop l.again.toUInt16])

/-- How far the body goes back: to the step, or to the condition if there is no step. -/
def back : Nat := (l.step.elim (width l.head) fun is => width is + 4) + (width l.body + 3)

/-- The condition is still on the stack behind the loop. -/
def tail : List Instruction := l.condition.elim [] fun _ => [.pop]

def code : List Instruction :=
  l.head ++ (l.stepCode ++ (l.body ++ .loop l.back.toUInt16 :: l.tail))

/-- The head before the way out has its distance. -/
def pending : List Instruction :=
  l.condition.elim [] fun is => is ++ [.jumpIfFalse 0xFFFF, .pop]

theorem width_pending : width l.pending = width l.head := by
  unfold pending head
  cases l.condition with
  | none => rfl
  | some is =>
    simp only [Option.elim_some, width_append]
    rfl

theorem width_stepCode : width l.stepCode = l.stepWidth := by
  unfold stepCode stepWidth
  cases l.step with
  | none => rfl
  | some is =>
    have : width [.pop, .loop l.again.toUInt16] = 4 := rfl
    simp only [Option.elim_some, width_cons, width_append, this, size, Instruction.operand,
      Operand.octets, List.length_cons, List.length_nil]
    omega

/-- No distance is too long. -/
structure Fits : Prop where
  exit : l.condition.isSome → l.exit ≤ jumpLimit
  step : l.step.isSome → l.again ≤ jumpLimit
  back : l.back ≤ jumpLimit

end Loop
end Compile
end StackScript
