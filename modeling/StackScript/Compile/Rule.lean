import StackScript.Bytecode.Instruction
import StackScript.Lexical.Token

/-!
# StackScript.Compile.Rule

What a token means inside an expression.

* `Precedence`: how tightly an operator binds.
* `Leading`: what an expression can start with.
* `Trailing`: what can go on after an operand, each with its precedence.
* `BinaryOperator.code`: the instructions of an operator. `a != b`, `a >= b` and `a <= b` are the
  negations of `a == b`, `a < b` and `a > b`.
-/

namespace StackScript
namespace Compile

inductive Precedence where
  | assignment
  | disjunction
  | conjunction
  | equality
  | comparison
  | term
  | factor
  | unary
  | call
  | primary
deriving DecidableEq

namespace Precedence

def rank : Precedence → Nat
  | .assignment => 1
  | .disjunction => 2
  | .conjunction => 3
  | .equality => 4
  | .comparison => 5
  | .term => 6
  | .factor => 7
  | .unary => 8
  | .call => 9
  | .primary => 10

instance : LE Precedence := ⟨fun p q => p.rank ≤ q.rank⟩

instance (p q : Precedence) : Decidable (p ≤ q) := Nat.decLe p.rank q.rank

/-- The next tighter precedence. -/
def next : Precedence → Precedence
  | .assignment => .disjunction
  | .disjunction => .conjunction
  | .conjunction => .equality
  | .equality => .comparison
  | .comparison => .term
  | .term => .factor
  | .factor => .unary
  | .unary => .call
  | .call => .primary
  | .primary => .primary

end Precedence

inductive UnaryOperator where
  | negate
  | negation
deriving DecidableEq

namespace UnaryOperator

def code : UnaryOperator → Instruction
  | .negate => .negate
  | .negation => .negation

end UnaryOperator

inductive BinaryOperator where
  | equal
  | notEqual
  | greater
  | greaterEqual
  | less
  | lessEqual
  | add
  | subtract
  | multiply
  | divide
deriving DecidableEq

namespace BinaryOperator

def code : BinaryOperator → List Instruction
  | .equal => [.equal]
  | .notEqual => [.equal, .negation]
  | .greater => [.greater]
  | .greaterEqual => [.less, .negation]
  | .less => [.less]
  | .lessEqual => [.greater, .negation]
  | .add => [.add]
  | .subtract => [.subtract]
  | .multiply => [.multiply]
  | .divide => [.divide]

def precedence : BinaryOperator → Precedence
  | .equal | .notEqual => .equality
  | .greater | .greaterEqual | .less | .lessEqual => .comparison
  | .add | .subtract => .term
  | .multiply | .divide => .factor

end BinaryOperator

inductive Leading where
  | grouping
  | array
  | unary (op : UnaryOperator)
  | variable
  | string
  | number
  | constant (i : Instruction)
deriving DecidableEq

inductive Trailing where
  | call
  | index
  | binary (op : BinaryOperator)
  | and
  | or
deriving DecidableEq

namespace Trailing

def precedence : Trailing → Precedence
  | .call | .index => .call
  | .binary op => op.precedence
  | .and => .conjunction
  | .or => .disjunction

end Trailing

/-- What a token at the start of an expression begins. -/
def leading? : TokenKind → Option Leading
  | .punctuation .leftParen => some .grouping
  | .punctuation .leftBracket => some .array
  | .punctuation .minus => some (.unary .negate)
  | .punctuation .bang => some (.unary .negation)
  | .identifier => some .variable
  | .string => some .string
  | .number => some .number
  | .keyword .false => some (.constant .pushFalse)
  | .keyword .true => some (.constant .pushTrue)
  | .keyword .nil => some (.constant .pushNil)
  | _ => none

/-- What a token behind an operand continues. -/
def trailing? : TokenKind → Option Trailing
  | .punctuation .leftParen => some .call
  | .punctuation .leftBracket => some .index
  | .punctuation .minus => some (.binary .subtract)
  | .punctuation .plus => some (.binary .add)
  | .punctuation .slash => some (.binary .divide)
  | .punctuation .star => some (.binary .multiply)
  | .punctuation .bangEqual => some (.binary .notEqual)
  | .punctuation .equalEqual => some (.binary .equal)
  | .punctuation .greater => some (.binary .greater)
  | .punctuation .greaterEqual => some (.binary .greaterEqual)
  | .punctuation .less => some (.binary .less)
  | .punctuation .lessEqual => some (.binary .lessEqual)
  | .keyword .and => some .and
  | .keyword .or => some .or
  | _ => none

end Compile
end StackScript
