import StackScript.Proofs.Syntax.Scope

/-!
# StackScript.Proofs.Syntax.Static

What a tree has to keep to beyond the grammar.

* `Stmt.Valid`: the static rules about declarations and `return`.
* `Need`: what a piece of code takes up in the function around it: constants, and variables of the
  functions further out.
* `Expr.width`, `Stmt.width`: how many octets the code of a tree has.
* `Stmt.Fits`, `Stmt.Modest`: the limits that operands of one or two octets impose.
-/

namespace StackScript
namespace Syntax

section Rules

mutual

/-- The variables that an expression reads or assigns. -/
def Expr.names : Expr → List String
  | .nil | .bool _ | .number _ | .string _ => []
  | .get name => [name]
  | .set name e => name :: e.names
  | .unary _ e => e.names
  | .binary _ a b | .and a b | .or a b | .index a b => a.names ++ b.names
  | .call e es => e.names ++ es.names
  | .setIndex a i v => a.names ++ (i.names ++ v.names)
  | .array es => es.names

def Exprs.names : Exprs → List String
  | .nil => []
  | .cons e es => e.names ++ es.names

end

/-- The static rules. No scope declares a local twice, a local does not occur in its own
initializer, and `return` stands in functions only. `inside` tells whether the statement is in a
function, `scope` has the names that were declared so far in the innermost scope; at the top of a
script, where variables are global, there is none. The parameters of a function are declared in the
scope of its body. -/
def Stmt.Valid : Bool → Option (List String) → Stmt → Prop
  | _, _, .empty | _, _, .expression _ | _, _, .print _ => True
  | inside, scope, .seq a b => a.Valid inside scope ∧ b.Valid inside (scope.map (a.declared ++ ·))
  | _, scope, .var name e => ∀ names ∈ scope, name ∉ names ∧ name ∉ e.names
  | _, scope, .function name xs a =>
    (∀ names ∈ scope, name ∉ names) ∧ xs.Nodup ∧ a.Valid true (some xs.reverse)
  | inside, _, .block a => a.Valid inside (some [])
  | inside, scope, .ifElse _ a b => a.Valid inside scope ∧ b.Valid inside scope
  | inside, scope, .while _ a => a.Valid inside scope
  | inside, _, .for i _ _ a => i.Valid inside (some []) ∧ a.Valid inside (some i.declared)
  | inside, _, .return _ => inside = true

end Rules

section Needs

/-- What a function has to have for a piece of its code. -/
inductive Need where
  | text (text : String)
  | number (x : Float)
  | function
  /-- a variable, as a number of functions outward and a slot there -/
  | variable (levels slot : Nat)

namespace Need

/-- Whether one thing serves two needs. Every function is one of its own, and numbers count as one
if they compare equal. -/
def same : Need → Need → Bool
  | .text s, .text t => s == t
  | .number x, .number y => x == y
  | .variable l s, .variable m t => l == m && s == t
  | _, _ => false

def isConstant : Need → Bool
  | .variable _ _ => false
  | _ => true

/-- What a need of a function means to the function around it. -/
def outward? : Need → Option Need
  | .variable (levels + 1) slot => some (.variable levels slot)
  | _ => none

/-- The variables of the functions around, as these see them. -/
def outward (ns : List Need) : List Need := ns.filterMap outward?

/-- The needs without those that an earlier one is the same as. -/
def distinct (ns : List Need) : List Need :=
  ns.foldl (fun ms n => if ms.any (same · n) then ms else ms ++ [n]) []

/-- The pool of constants of a function with these needs. -/
def constants (ns : List Need) : List Need := distinct (ns.filter isConstant)

/-- The upvalues of a function with these needs. -/
def upvalues (ns : List Need) : List Need := distinct (outward ns)

/-- An operand of one octet tells apart all constants and all upvalues. -/
def Modest (ns : List Need) : Prop := (constants ns).length ≤ 256 ∧ (upvalues ns).length ≤ 256

end Need

/-- What an occurrence of a variable needs: the variable, or its name if it is global. -/
def Scopes.need (σ : Scopes) (name : String) : Need :=
  match σ.find name with
  | some (levels, slot) => .variable levels slot
  | none => .text name

/-- What the declaration of a variable needs: its name if it is global. -/
def Scopes.declare (σ : Scopes) (name : String) : List Need := if σ.nested then [] else [.text name]

mutual

def Expr.needs (σ : Scopes) : Expr → List Need
  | .nil | .bool _ => []
  | .number x => [.number x]
  | .string text => [.text text]
  | .get name => [σ.need name]
  | .set name e => σ.need name :: e.needs σ
  | .unary _ e => e.needs σ
  | .binary _ a b | .and a b | .or a b | .index a b => a.needs σ ++ b.needs σ
  | .call e es => e.needs σ ++ es.needs σ
  | .setIndex a i v => a.needs σ ++ (i.needs σ ++ v.needs σ)
  | .array es => es.needs σ

def Exprs.needs (σ : Scopes) : Exprs → List Need
  | .nil => []
  | .cons e es => e.needs σ ++ es.needs σ

end

/-- What the enclosing function needs for a statement. Of a nested function it has the upvalues to
provide, and the function itself is a constant. -/
def Stmt.needs (σ : Scopes) : Stmt → List Need
  | .empty => []
  | .seq a b => a.needs σ ++ b.needs (σ.behind a)
  | .expression e | .print e | .return e => e.needs σ
  | .var name e => σ.declare name ++ e.needs σ
  | .function name xs a =>
    σ.declare name ++ (Need.outward (a.needs ((σ.behind (.function name xs a)).body xs)) ++ [.function])
  | .block a => a.needs σ.block
  | .ifElse e a b => e.needs σ ++ (a.needs σ ++ b.needs σ)
  | .while e a => e.needs σ ++ a.needs σ
  | .for i c s a =>
    let inner := σ.block.behind i
    i.needs σ.block ++ (c.elim [] (·.needs inner) ++ (s.elim [] (·.needs inner) ++ a.needs inner))

/-- The most locals that a statement has at one time, beyond those in front of it. -/
def Stmt.locals (nested : Bool) : Stmt → Nat
  | .seq a b => max (a.locals nested) ((if nested then a.declared.length else 0) + b.locals nested)
  | .var _ _ | .function _ _ _ => if nested then 1 else 0
  | .block a => a.locals true
  | .ifElse _ a b => max (a.locals nested) (b.locals nested)
  | .while _ a => a.locals nested
  | .for i _ _ a => max (i.locals true) (i.declared.length + a.locals true)
  | _ => 0

end Needs

section Widths

/-- The octets of an operator. Three comparisons are negations of others. -/
def binaryWidth : Compile.BinaryOperator → Nat
  | .notEqual | .greaterEqual | .lessEqual => 2
  | _ => 1

mutual

def Expr.width : Expr → Nat
  | .nil | .bool _ => 1
  | .number _ | .string _ | .get _ => 2
  | .set _ e => e.width + 2
  | .unary _ e => e.width + 1
  | .binary op a b => a.width + (b.width + binaryWidth op)
  | .and a b => a.width + (b.width + 4)
  | .or a b => a.width + (b.width + 7)
  | .call e es => e.width + (es.width + 2)
  | .index a i => a.width + (i.width + 1)
  | .setIndex a i v => a.width + (i.width + (v.width + 1))
  | .array es => es.width + 2

def Exprs.width : Exprs → Nat
  | .nil => 0
  | .cons e es => e.width + es.width

end

/-- The widths of the parts of a loop. -/
structure Span where
  condition : Option Nat
  step : Option Nat
  body : Nat

namespace Span

variable (l : Span)

/-- The step has a jump around it and one back. -/
def stepWidth : Nat := l.step.elim 0 (· + 7)

/-- The condition has a jump behind it. -/
def head : Nat := l.condition.elim 0 (· + 4)

/-- How far the loop is left over. -/
def exit : Nat := l.stepWidth + (l.body + 4)

/-- How far the step goes back to the condition. -/
def again : Nat := l.head + l.stepWidth

/-- How far the body goes back. -/
def back : Nat := l.step.elim l.head (· + 4) + (l.body + 3)

def width : Nat := l.head + (l.stepWidth + (l.body + (3 + l.condition.elim 0 fun _ => 1)))

/-- An operand of two octets tells every distance. -/
structure Fits : Prop where
  exit : l.condition.isSome → l.exit ≤ 65535
  step : l.step.isSome → l.again ≤ 65535
  back : l.back ≤ 65535

end Span

def Stmt.width (σ : Scopes) : Stmt → Nat
  | .empty => 0
  | .seq a b => a.width σ + b.width (σ.behind a)
  | .expression e | .print e | .return e => e.width + 1
  | .var _ e => e.width + if σ.nested then 0 else 2
  | .function name xs a =>
    2 + 3 * (Need.upvalues (a.needs ((σ.behind (.function name xs a)).body xs))).length +
      if σ.nested then 0 else 2
  | .block a => a.width σ.block + a.declared.length
  | .ifElse e a b => e.width + (a.width σ + (b.width σ + 8))
  | .while e a => Span.width ⟨some e.width, none, a.width σ⟩
  | .for i c s a =>
    let inner := σ.block.behind i
    i.width σ.block + (Span.width ⟨c.map Expr.width, s.map Expr.width, a.width inner⟩ +
      i.declared.length)

end Widths

section Limits

mutual

/-- At most 255 arguments and elements, and no jump over more than 65535 octets. -/
def Expr.Fits : Expr → Prop
  | .nil | .bool _ | .number _ | .string _ | .get _ => True
  | .set _ e | .unary _ e => e.Fits
  | .binary _ a b | .index a b => a.Fits ∧ b.Fits
  | .and a b | .or a b => a.Fits ∧ b.Fits ∧ b.width + 1 ≤ 65535
  | .call e es => e.Fits ∧ es.Fits ∧ es.length ≤ 255
  | .setIndex a i v => a.Fits ∧ i.Fits ∧ v.Fits
  | .array es => es.Fits ∧ es.length ≤ 255

def Exprs.Fits : Exprs → Prop
  | .nil => True
  | .cons e es => e.Fits ∧ es.Fits

end

/-- The jumps of a statement are short enough, and its functions have at most 255 parameters, 256
locals at one time, the function itself among them, 256 constants and 256 upvalues. -/
def Stmt.Fits (σ : Scopes) : Stmt → Prop
  | .empty => True
  | .seq a b => a.Fits σ ∧ b.Fits (σ.behind a)
  | .expression e | .print e | .var _ e | .return e => e.Fits
  | .function name xs a =>
    let inner := (σ.behind (.function name xs a)).body xs
    xs.length ≤ 255 ∧ 1 + xs.length + a.locals true ≤ 256 ∧ Need.Modest (a.needs inner) ∧ a.Fits inner
  | .block a => a.Fits σ.block
  | .ifElse e a b =>
    e.Fits ∧ a.Fits σ ∧ b.Fits σ ∧ a.width σ + 4 ≤ 65535 ∧ b.width σ + 1 ≤ 65535
  | .while e a => e.Fits ∧ a.Fits σ ∧ Span.Fits ⟨some e.width, none, a.width σ⟩
  | .for i c s a =>
    let inner := σ.block.behind i
    i.Fits σ.block ∧ (∀ e ∈ c, e.Fits) ∧ (∀ e ∈ s, e.Fits) ∧ a.Fits inner ∧
      Span.Fits ⟨c.map Expr.width, s.map Expr.width, a.width inner⟩

/-- All functions of a script, the script among them, keep to the limits. -/
structure Stmt.WithinLimits (a : Stmt) : Prop where
  locals : 1 + a.locals false ≤ 256
  modest : Need.Modest (a.needs .script)
  fits : a.Fits .script

end Limits

end Syntax
end StackScript
