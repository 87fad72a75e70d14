import StackScript.Proofs.Syntax.Tree

/-!
# StackScript.Proofs.Syntax.Scope

Which declaration an occurrence of a variable means, read off the tree.

* `Scopes`: the declarations that a place of the source can see.
* `lookup`: the innermost declaration of a name, as a number of functions outward and a slot there.
* `Stmt.occurrences`: all occurrences of variables, in the order in which they are compiled.
-/

namespace StackScript
namespace Syntax

/-- The names declared around a place, function by function from the innermost one outward, and in
each function the last declaration first. At the bottom of a function stands a name for the
function itself. -/
structure Scopes where
  names : List String
  outer : List (List String)
  /-- at the top of a script declarations are global -/
  nested : Bool

/-- The slot of a declaration is the number of those before it. -/
def slotIn (name : String) : List String → Option Nat
  | [] => none
  | x :: before => if x = name then some before.length else slotIn name before

def lookup (name : String) : List (List String) → Option (Nat × Nat)
  | [] => none
  | names :: outer =>
    match slotIn name names with
    | some slot => some (0, slot)
    | none => (lookup name outer).map fun (levels, slot) => (levels + 1, slot)

namespace Scopes

def script : Scopes := ⟨[""], [], false⟩

def find (σ : Scopes) (name : String) : Option (Nat × Nat) := lookup name (σ.names :: σ.outer)

/-- The scopes of a block. -/
def block (σ : Scopes) : Scopes := { σ with nested := true }

/-- The scopes behind a statement. -/
def behind (σ : Scopes) (a : Stmt) : Scopes :=
  { σ with names := if σ.nested then a.declared ++ σ.names else σ.names }

/-- The scopes of the body of a function. -/
def body (σ : Scopes) (parameters : List String) : Scopes :=
  ⟨parameters.reverse ++ [""], σ.names :: σ.outer, true⟩

end Scopes

/-- A variable with its declaration, none if it is global, or a function with what occurs in it. -/
inductive Occurrence where
  | variable (name : String) (assigned : Bool) (declaration : Option (Nat × Nat))
  | function (inner : List Occurrence)

mutual

def Expr.occurrences (σ : Scopes) : Expr → List Occurrence
  | .nil | .bool _ | .number _ | .string _ => []
  | .get name => [.variable name false (σ.find name)]
  | .set name e => e.occurrences σ ++ [.variable name true (σ.find name)]
  | .unary _ e => e.occurrences σ
  | .binary _ a b | .and a b | .or a b | .index a b => a.occurrences σ ++ b.occurrences σ
  | .call e es => e.occurrences σ ++ es.occurrences σ
  | .setIndex a i v => a.occurrences σ ++ (i.occurrences σ ++ v.occurrences σ)
  | .array es => es.occurrences σ

def Exprs.occurrences (σ : Scopes) : Exprs → List Occurrence
  | .nil => []
  | .cons e es => e.occurrences σ ++ es.occurrences σ

end

def Stmt.occurrences (σ : Scopes) : Stmt → List Occurrence
  | .empty => []
  | .seq a b => a.occurrences σ ++ b.occurrences (σ.behind a)
  | .expression e | .print e | .var _ e | .return e => e.occurrences σ
  | .function name xs a =>
    [.function (a.occurrences ((σ.behind (.function name xs a)).body xs))]
  | .block a => a.occurrences σ.block
  | .ifElse e a b => e.occurrences σ ++ (a.occurrences σ ++ b.occurrences σ)
  | .while e a => e.occurrences σ ++ a.occurrences σ
  | .for i c s a =>
    let inner := σ.block.behind i
    i.occurrences σ.block ++ (c.elim [] (·.occurrences inner) ++ (s.elim [] (·.occurrences inner) ++
      a.occurrences inner))

end Syntax
end StackScript
