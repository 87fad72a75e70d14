import StackScript.Proofs.Compile.Code
import StackScript.Proofs.Syntax.Static

/-!
# StackScript.Proofs.Syntax.Alike

Scripts in which some loops are written in another way.

* `Stmt.free`: the variables of a statement that it does not declare itself.
* `Stmt.asWhile`: `{ I while (C) { S E; } }` for `for (I; C; E) S`.
* `Alike`: a script, and the same one with some `for` loops written like that.
-/

namespace StackScript
namespace Syntax

namespace Stmt

/-- The variables that a statement reads or assigns without having declared them. -/
def free : Stmt → List String
  | .empty => []
  | .seq a b => a.free ++ b.free.filter (· ∉ a.declared)
  | .expression e | .print e | .var _ e | .return e => e.names
  | .function name xs a => a.free.filter (· ∉ name :: xs)
  | .block a => a.free
  | .ifElse e a b => e.names ++ (a.free ++ b.free)
  | .while e a => e.names ++ a.free
  | .for i c s a =>
    i.free ++ (c.elim [] Expr.names ++ (s.elim [] Expr.names ++ a.free)).filter (· ∉ i.declared)

/-- The third clause of a `for` as the end of a block. -/
def stepped (step : Option Expr) : Stmt := step.elim .empty fun e => .seq (.expression e) .empty

/-- The first clause of a `for` in front of the rest of a block. -/
def started : Stmt → Stmt → Stmt
  | .empty, rest => rest
  | start, rest => .seq start rest

/-- The block `{ I while (C) { S E; } }` for `for (I; C; E) S`. Without `C` the condition is `true`. -/
def asWhile (start : Stmt) (condition step : Option Expr) (body : Stmt) : Stmt :=
  .block (start.started (.seq
    (.while (condition.getD (.bool true)) (.block (.seq body (stepped step)))) .empty))

end Stmt

/-- The second script is the first one with some of its `for` loops written with `while`. A loop
without a condition is among them only if `endless` says so. -/
inductive Alike (endless : Prop) : Stmt → Stmt → Prop where
  | empty : Alike endless .empty .empty
  | seq {a a' b b' : Stmt} : Alike endless a a' → Alike endless b b' →
      Alike endless (.seq a b) (.seq a' b')
  | expression (e : Expr) : Alike endless (.expression e) (.expression e)
  | print (e : Expr) : Alike endless (.print e) (.print e)
  | var (name : String) (e : Expr) : Alike endless (.var name e) (.var name e)
  | function (name : String) (xs : List String) {a a' : Stmt} : Alike endless a a' →
      Alike endless (.function name xs a) (.function name xs a')
  | block {a a' : Stmt} : Alike endless a a' → Alike endless (.block a) (.block a')
  | ifElse (e : Expr) {a a' b b' : Stmt} : Alike endless a a' → Alike endless b b' →
      a.declaresNothing → b.declaresNothing → Alike endless (.ifElse e a b) (.ifElse e a' b')
  | while (e : Expr) {a a' : Stmt} : Alike endless a a' → a.declaresNothing →
      Alike endless (.while e a) (.while e a')
  | for {i i' a a' : Stmt} (c s : Option Expr) : Alike endless i i' → Alike endless a a' →
      a.declaresNothing → Alike endless (.for i c s a) (.for i' c s a')
  | return (e : Expr) : Alike endless (.return e) (.return e)
  /-- a `for` that is written with `while` -/
  | asWhile {i i' a a' : Stmt} (c s : Option Expr) : Alike endless i i' → Alike endless a a' →
      a.declaresNothing → (c = none → endless) →
      Alike endless (.for i c s a) (Stmt.asWhile i' c s a')

namespace Alike

variable {endless : Prop} {a a' : Stmt}

theorem declared (h : Alike endless a a') : a'.declared = a.declared := by
  induction h with
  | seq _ _ ih ih' => rw [Stmt.declared, Stmt.declared, ih, ih']
  | _ => rfl

theorem declaresNothing (h : Alike endless a a') : a'.declaresNothing = a.declaresNothing := by
  cases h <;> rfl

end Alike

/-- A script that has code is like itself. -/
theorem alike_self {endless : Prop} {c c' : Compile.Context} {a : Stmt} {is : List Instruction}
    (h : Compile.StmtCode c a is c') : Alike endless a a := by
  induction h with
  | empty => exact .empty
  | seq _ _ ih ih' => exact .seq ih ih'
  | expression => exact .expression _
  | print => exact .print _
  | var => exact .var _ _
  | function _ _ _ _ _ ih => exact .function _ _ ih
  | block _ ih => exact .block ih
  | ifElse _ _ _ na nb _ _ ih ih' => exact .ifElse _ ih ih' na nb
  | «while» _ _ na _ ih => exact .while _ ih na
  | «for» _ _ _ _ na _ ih ih' => exact .for _ _ ih ih' na
  | «return» => exact .return _

end Syntax
end StackScript
