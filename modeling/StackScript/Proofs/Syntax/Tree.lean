import StackScript.Compile.Rule

/-!
# StackScript.Proofs.Syntax.Tree

The parse trees of the language. Parentheses leave no trace, a variable without an initializer
starts as `nil`, and a `return` without a value returns `nil`.

* `Expr`, `Exprs`: expressions, and the items of a call or an array.
* `Stmt`: statements and declarations; `seq` and `empty` make lists of them.
-/

namespace StackScript
namespace Syntax

open Compile (UnaryOperator BinaryOperator)

mutual

inductive Expr where
  | nil
  | bool (b : Bool)
  | number (x : Float)
  | string (text : String)
  | get (name : String)
  | set (name : String) (value : Expr)
  | unary (op : UnaryOperator) (e : Expr)
  | binary (op : BinaryOperator) (a b : Expr)
  | and (a b : Expr)
  | or (a b : Expr)
  | call (callee : Expr) (arguments : Exprs)
  | index (target index : Expr)
  | setIndex (target index value : Expr)
  | array (elements : Exprs)

inductive Exprs where
  | nil
  | cons (e : Expr) (rest : Exprs)

end

namespace Exprs

def length : Exprs → Nat
  | .nil => 0
  | .cons _ rest => rest.length + 1

end Exprs

inductive Stmt where
  | empty
  | seq (first rest : Stmt)
  | expression (e : Expr)
  | print (e : Expr)
  | var (name : String) (initial : Expr)
  | function (name : String) (parameters : List String) (body : Stmt)
  | block (body : Stmt)
  /-- without an `else`, `no` is `empty` -/
  | ifElse (condition : Expr) (yes no : Stmt)
  | while (condition : Expr) (body : Stmt)
  | for (start : Stmt) (condition step : Option Expr) (body : Stmt)
  | return (value : Expr)

namespace Stmt

/-- Whether a statement ends with an `if` that an `else` behind it would belong to. -/
def isOpen : Stmt → Bool
  | .ifElse _ _ .empty => true
  | .ifElse _ _ no => no.isOpen
  | .while _ body => body.isOpen
  | .for _ _ _ body => body.isOpen
  | _ => false

/-- Whether a statement can be the branch of an `if` or the body of a loop. -/
def declaresNothing : Stmt → Bool
  | .seq _ _ | .var _ _ | .function _ _ _ => false
  | _ => true

/-- The variables that a statement declares for the statements behind it, the last one first. -/
def declared : Stmt → List String
  | .seq a b => b.declared ++ a.declared
  | .var name _ | .function name _ _ => [name]
  | _ => []

theorem declared_of_declaresNothing {a : Stmt} (h : a.declaresNothing = true) :
    a.declared = [] := by
  cases a <;> first | rfl | cases h

end Stmt
end Syntax
end StackScript
