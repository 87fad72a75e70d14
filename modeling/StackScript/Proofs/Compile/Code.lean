import StackScript.Proofs.Bytecode.Branch
import StackScript.Proofs.Compile.Context
import StackScript.Proofs.Syntax.Tree

/-!
# StackScript.Proofs.Compile.Code

The code of a tree, with the context in front of it and the one behind it.

* `ExprCode`, `ExprsCode`: expressions.
* `StmtCode`: statements and declarations. A function leaves its object on the heap and its closure
  on the stack.
* `ScriptCode`: a whole script.
-/

namespace StackScript
namespace Compile

open Syntax Instruction

mutual

inductive ExprCode : Context → Expr → List Instruction → Context → Prop where
  | nil {c : Context} : ExprCode c .nil [.pushNil] c
  | true {c : Context} : ExprCode c (.bool true) [.pushTrue] c
  | false {c : Context} : ExprCode c (.bool false) [.pushFalse] c
  | number {c c' : Context} {x : Float} {k : UInt8} :
      c.addConstant? (.number x) = some (c', k) → ExprCode c (.number x) [.constant k] c'
  | string {c c' : Context} {text : String} {k : UInt8} :
      c.textConstant? text = some (c', k) → ExprCode c (.string text) [.constant k] c'
  | get {c c' : Context} {name : String} {p : Place} :
      c.resolve? name = some (c', p) → ExprCode c (.get name) [p.read] c'
  | set {c c₁ c' : Context} {name : String} {p : Place} {e : Expr} {is : List Instruction} :
      c.resolve? name = some (c₁, p) → ExprCode c₁ e is c' →
      ExprCode c (.set name e) (is ++ [p.assign]) c'
  | unary {c c' : Context} {op : UnaryOperator} {e : Expr} {is : List Instruction} :
      ExprCode c e is c' → ExprCode c (.unary op e) (is ++ [unaryCode op]) c'
  | binary {c c₁ c' : Context} {op : BinaryOperator} {a b : Expr} {is js : List Instruction} :
      ExprCode c a is c₁ → ExprCode c₁ b js c' →
      ExprCode c (.binary op a b) (is ++ (js ++ binaryCode op)) c'
  | and {c c₁ c' : Context} {a b : Expr} {is js : List Instruction} :
      ExprCode c a is c₁ → ExprCode c₁ b js c' → width js + 1 ≤ jumpLimit →
      ExprCode c (.and a b) (is ++ andCode js) c'
  | or {c c₁ c' : Context} {a b : Expr} {is js : List Instruction} :
      ExprCode c a is c₁ → ExprCode c₁ b js c' → width js + 1 ≤ jumpLimit →
      ExprCode c (.or a b) (is ++ orCode js) c'
  | call {c c₁ c' : Context} {e : Expr} {es : Exprs} {is js : List Instruction} :
      ExprCode c e is c₁ → ExprsCode c₁ es js c' → es.length ≤ countLimit →
      ExprCode c (.call e es) (is ++ (js ++ [.call es.length.toUInt8])) c'
  | index {c c₁ c' : Context} {a i : Expr} {is js : List Instruction} :
      ExprCode c a is c₁ → ExprCode c₁ i js c' →
      ExprCode c (.index a i) (is ++ (js ++ [.getIndex])) c'
  | setIndex {c c₁ c₂ c' : Context} {a i v : Expr} {is js ks : List Instruction} :
      ExprCode c a is c₁ → ExprCode c₁ i js c₂ → ExprCode c₂ v ks c' →
      ExprCode c (.setIndex a i v) (is ++ (js ++ (ks ++ [.setIndex]))) c'
  | array {c c' : Context} {es : Exprs} {is : List Instruction} :
      ExprsCode c es is c' → es.length ≤ countLimit →
      ExprCode c (.array es) (is ++ [.array es.length.toUInt8]) c'

inductive ExprsCode : Context → Exprs → List Instruction → Context → Prop where
  | nil {c : Context} : ExprsCode c .nil [] c
  | cons {c c₁ c' : Context} {e : Expr} {es : Exprs} {is js : List Instruction} :
      ExprCode c e is c₁ → ExprsCode c₁ es js c' → ExprsCode c (.cons e es) (is ++ js) c'

end

/-- A clause of a loop. -/
inductive ClauseCode : Context → Option Expr → Option (List Instruction) → Context → Prop where
  | absent {c : Context} : ClauseCode c none none c
  | present {c c' : Context} {e : Expr} {is : List Instruction} :
      ExprCode c e is c' → ClauseCode c (some e) (some is) c'

inductive StmtCode : Context → Stmt → List Instruction → Context → Prop where
  | empty {c : Context} : StmtCode c .empty [] c
  | seq {c c₁ c' : Context} {a b : Stmt} {is js : List Instruction} :
      StmtCode c a is c₁ → StmtCode c₁ b js c' → StmtCode c (.seq a b) (is ++ js) c'
  | expression {c c' : Context} {e : Expr} {is : List Instruction} :
      ExprCode c e is c' → StmtCode c (.expression e) (is ++ [.pop]) c'
  | print {c c' : Context} {e : Expr} {is : List Instruction} :
      ExprCode c e is c' → StmtCode c (.print e) (is ++ [.print]) c'
  | var {c c₁ c' : Context} {name : String} {k : UInt8} {e : Expr} {is : List Instruction} :
      c.newVariable? name = some (c₁, k) → ExprCode c₁ e is c' →
      StmtCode c (.var name e) (is ++ c'.definition k) c'.makeReadable
  | function {c c₁ c₂ c₃ c' : Context} {name : String} {k k' : UInt8} {xs : List String}
      {a : Stmt} {is : List Instruction} {lines : Array Nat} :
      c.newVariable? name = some (c₁, k) →
      (c₁.makeReadable.enterFunction name).addParameters? xs = some c₂ →
      StmtCode c₂ a is c₃ →
      lines.size = width (is ++ [.pushNil, .ret]) →
      c₃.leaveFunction? (c₃.finish (stream (is ++ [.pushNil, .ret])) lines) = some (c', k') →
      StmtCode c (.function name xs a) (c₃.closureCode k' ++ c'.definition k) c'.makeReadable
  | block {c c' : Context} {a : Stmt} {is : List Instruction} :
      StmtCode c.openScope a is c' → StmtCode c (.block a) (is ++ c'.scopeCode) c'.closeScope
  | ifElse {c c₁ c₂ c' : Context} {e : Expr} {a b : Stmt} {is js ks : List Instruction} :
      ExprCode c e is c₁ → StmtCode c₁ a js c₂ → StmtCode c₂ b ks c' →
      a.declaresNothing → b.declaresNothing → width js + 4 ≤ jumpLimit → width ks + 1 ≤ jumpLimit →
      StmtCode c (.ifElse e a b) (is ++ choiceCode js ks) c'
  | while {c c₁ c' : Context} {e : Expr} {a : Stmt} {is js : List Instruction} :
      ExprCode c e is c₁ → StmtCode c₁ a js c' → a.declaresNothing →
      Loop.Fits ⟨some is, none, js⟩ →
      StmtCode c (.while e a) (Loop.code ⟨some is, none, js⟩) c'
  | for {c c₁ c₂ c₃ c' : Context} {i a : Stmt} {e₁ e₂ : Option Expr}
      {is js : List Instruction} {is₁ is₂ : Option (List Instruction)} :
      StmtCode c.openScope i is c₁ → ClauseCode c₁ e₁ is₁ c₂ → ClauseCode c₂ e₂ is₂ c₃ →
      StmtCode c₃ a js c' → a.declaresNothing → Loop.Fits ⟨is₁, is₂, js⟩ →
      StmtCode c (.for i e₁ e₂ a) (is ++ (Loop.code ⟨is₁, is₂, js⟩ ++ c'.scopeCode)) c'.closeScope
  | return {c c' : Context} {e : Expr} {is : List Instruction} :
      c.draft.kind = .function → ExprCode c e is c' → StmtCode c (.return e) (is ++ [.ret]) c'

/-- A script, the function it becomes, and the heap before and after. -/
inductive ScriptCode : Heap → Stmt → Function → Heap → Prop where
  | intro {h : Heap} {c : Context} {a : Stmt} {is : List Instruction} {lines : Array Nat} :
      StmtCode ⟨.new .script none, [], h⟩ a is c → lines.size = width (is ++ [.pushNil, .ret]) →
      ScriptCode h a (c.finish (stream (is ++ [.pushNil, .ret])) lines) c.heap

end Compile
end StackScript
