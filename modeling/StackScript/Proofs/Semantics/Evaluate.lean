import StackScript.Proofs.Semantics.Store

/-!
# StackScript.Proofs.Semantics.Evaluate

The meaning of a script, by recursion on its tree.

* `Site`: where something is evaluated: the variables around it, the active calls, and how many
  places of the stack are taken.
* `Limits`: how many places there are and how deep calls nest; `Limits.none` if that is no concern.
* `expr`, `stmt`: expressions from left to right, and statements. A statement goes on behind itself
  or returns from its function (`Flow`).
* `invoke`: calls. `n` bounds how deep calls and how long loops go; without a result `n` is too small.
* `script`: a whole script.
-/

namespace StackScript
namespace Semantics

open Machine (Fault OutputFault)
open Syntax

/-- Why an evaluation ends before the script does. The active calls are told by the names of their
functions, innermost first; the script has none. -/
inductive Halt where
  | fault (f : Fault) (calls : List (Option String))
  /-- no place is left on the stack -/
  | full (calls : List (Option String))
  | output (cause : OutputFault)
  | exit (code : UInt8)

structure Limits where
  places : Option Nat
  calls : Option Nat

/-- Stack and calls without limits. -/
def Limits.none : Limits := ⟨.none, .none⟩

structure Site where
  env : Env
  /-- at the top of a script declarations are global -/
  nested : Bool
  height : Nat
  calls : List (Option String)

namespace Site

/-- The top of a script. -/
def script : Site := ⟨[], false, 1, [none]⟩

/-- Inside a block. -/
def inside (σ : Site) : Site := { σ with nested := true }

/-- With one more value on the stack. -/
def up (σ : Site) : Site := { σ with height := σ.height + 1 }

end Site

/-- Evaluations have a store and may end early, with the store that they leave; without any result
they take too long. -/
abbrev Eval := ExceptT Halt (StateT Store Option)

/-- What comes behind a statement: the next one, or the end of the function. -/
inductive Flow where
  | next (σ : Site)
  | returned (v : Val)

/-- Behind a statement whose variables are not in scope any more. -/
def Flow.leave (σ : Site) : Flow → Flow
  | .next _ => .next σ
  | .returned v => .returned v

section Primitives

variable {α : Type}

/-- More calls or rounds than allowed. -/
def exhausted : Eval α := fun _ => .none

def Site.fail (σ : Site) (f : Fault) : Eval α := throw (.fault f σ.calls)

/-- A result, or a fault at a site. -/
def Site.lift (σ : Site) : Except Fault α → Eval α
  | .ok a => return a
  | .error f => σ.fail f

/-- A new local variable. -/
def newCell (v : Val) : Eval Nat := modifyGet fun s =>
  (s.cells.size, { s with cells := s.cells.push v })

def setCell (c : Nat) (v : Val) : Eval Unit := modify fun s =>
  { s with cells := s.cells.setIfInBounds c v }

def newArray (elements : List Val) : Eval Val := modifyGet fun s =>
  (.array s.arrays.size, { s with arrays := s.arrays.push elements.toArray })

def newClosure (f : Lambda) : Eval Val := modifyGet fun s =>
  (.closure s.closures.size, { s with closures := s.closures.push f })

def define (name : String) (v : Val) : Eval Unit := modify fun s => s.define name v

/-- The value of the variable that a name means: the innermost one around the site, or else the
global one at this moment. -/
def Site.read (σ : Site) (name : String) : Eval Val := do
  match σ.env.lookup name with
  | some c => return (← get).cell c
  | .none =>
    match (← get).globals name with
    | some v => return v
    | .none => σ.fail (.undefinedVariable name)

def Site.assign (σ : Site) (name : String) (v : Val) : Eval Unit := do
  match σ.env.lookup name with
  | some c => setCell c v
  | .none =>
    if ((← get).globals name).isSome then define name v
    else σ.fail (.undefinedVariable name)

/-- A variable declared: global at the top of a script, otherwise local, and then its value stays on
the stack. -/
def Site.declare (σ : Site) (name : String) (v : Val) : Eval Site := do
  if σ.nested then
    let c ← newCell v
    return { σ.up with env := (name, c) :: σ.env }
  else
    define name v
    return σ

/-- The parameters of a function, with the arguments as their values. -/
def bindAll : Env → List String → List Val → Eval Env
  | env, x :: xs, v :: vs => do
    let c ← newCell v
    bindAll ((x, c) :: env) xs vs
  | env, _, _ => return env

/-- Prints a value. -/
def printLine (v : Val) : Eval Unit := do
  let fits ← modifyGet fun s =>
    let (output, fits) := s.output.write (s.display v ++ "\n")
    (fits, { s with output })
  unless fits do
    throw (.output .full)

/-- Calls a native. -/
def Site.native (σ : Site) (b : Builtin) (v : Val) : Eval Val := do
  match (← get).answer b v with
  | .ok (w, world) =>
    modify fun s => { s with world }
    return w
  | .error (.fault f) => σ.fail f
  | .error (.exit code) => throw (.exit code)

/-- Goes round until there is a result. -/
def loop : Nat → Eval (Option α) → Eval α
  | 0, _ => exhausted
  | n + 1, round => do
    match ← round with
    | some a => return a
    | .none => loop n round

/-- A loop goes on behind itself, at `σ`, when the condition does not hold. -/
def rounds (n : Nat) (σ : Site) (condition : Eval Bool) (body : Eval Flow) (step : Eval Unit) :
    Eval Flow :=
  loop n do
    if ← condition then
      match ← body with
      | .next _ =>
        step
        return .none
      | .returned v => return some (.returned v)
    else return some (.next σ)

end Primitives

section Evaluation

variable (L : Limits)

/-- A value takes the next place on the stack. -/
def put (σ : Site) (v : Val) : Eval Val :=
  if L.places.all (σ.height < ·) then return v else throw (.full σ.calls)

variable (call : Site → Val → List Val → Eval Val)

mutual

def expr (σ : Site) : Expr → Eval Val
  | .nil => put L σ .nil
  | .bool b => put L σ (.bool b)
  | .number x => put L σ (.number x)
  | .string text => put L σ (.string text)
  | .get name => do put L σ (← σ.read name)
  | .set name e => do
    let v ← expr σ e
    σ.assign name v
    return v
  | .unary op e => do
    let v ← expr σ e
    σ.lift (applyUnary op v)
  | .binary op a b => do
    let v ← expr σ a
    let w ← expr σ.up b
    σ.lift (applyBinary op v w)
  | .and a b => do
    let v ← expr σ a
    if v.isFalsey then return v else expr σ b
  | .or a b => do
    let v ← expr σ a
    if v.isFalsey then expr σ b else return v
  | .call e es => do
    let f ← expr σ e
    let vs ← exprs σ.up es
    call σ f vs
  | .index a i => do
    let target ← expr σ a
    let index ← expr σ.up i
    let (id, k) ← σ.lift ((← get).element target index)
    return ((← get).elements id)[k]?.getD .nil
  | .setIndex a i v => do
    let target ← expr σ a
    let index ← expr σ.up i
    let w ← expr σ.up.up v
    let (id, k) ← σ.lift ((← get).element target index)
    modify fun s => { s with arrays := s.arrays.modify id (·.setIfInBounds k w) }
    return w
  | .array es => do
    let vs ← exprs σ es
    put L σ (← newArray vs)

def exprs (σ : Site) : Exprs → Eval (List Val)
  | .nil => return []
  | .cons e es => do
    let v ← expr σ e
    let vs ← exprs σ.up es
    return v :: vs

end

/-- Whether a condition holds; an absent one does. -/
def holds (σ : Site) : Option Expr → Eval Bool
  | .none => return true
  | some e => do return !(← expr L call σ e).isFalsey

/-- A statement for what it does only. -/
def perform (σ : Site) : Option Expr → Eval Unit
  | .none => return ()
  | some e => do let _ ← expr L call σ e

/-- The closure of a function in a local variable can refer to that variable. -/
def closure (σ : Site) (name : String) (parameters : List String) (body : Stmt) : Eval Site := do
  if σ.nested then
    let c ← newCell .nil
    let env := (name, c) :: σ.env
    setCell c (← put L σ (← newClosure ⟨name, parameters, body, env⟩))
    return { σ.up with env }
  else
    σ.declare name (← put L σ (← newClosure ⟨name, parameters, body, σ.env⟩))

/-- Loops go round at most `n` times. -/
def stmt (n : Nat) (σ : Site) : Stmt → Eval Flow
  | .empty => return .next σ
  | .seq a b => do
    match ← stmt n σ a with
    | .next τ => stmt n τ b
    | .returned v => return .returned v
  | .expression e => do
    let _ ← expr L call σ e
    return .next σ
  | .print e => do
    printLine (← expr L call σ e)
    return .next σ
  | .var name e => do return .next (← σ.declare name (← expr L call σ e))
  | .function name xs a => do return .next (← closure L σ name xs a)
  | .block a => do return (← stmt n σ.inside a).leave σ
  | .ifElse e a b => do
    if ← holds L call σ (some e) then return (← stmt n σ a).leave σ
    else return (← stmt n σ b).leave σ
  | .while e a => rounds n σ (holds L call σ (some e)) (stmt n σ a) (return ())
  | .for i c s a => do
    match ← stmt n σ.inside i with
    | .next τ => rounds n σ (holds L call τ c) (stmt n τ a) (perform L call τ s)
    | .returned v => return .returned v
  | .return e => do return .returned (← expr L call σ e)

/-- The result of a function, `nil` if it does not say. -/
def Flow.result : Flow → Eval Val
  | .next τ => put L τ .nil
  | .returned v => return v

end Evaluation

section Calls

variable (L : Limits)

def invoke : Nat → Site → Val → List Val → Eval Val
  | 0, _, _, _ => exhausted
  | n + 1, σ, .closure id, vs => do
    match (← get).closures[id]? with
    | some f =>
      if vs.length ≠ f.parameters.length then
        σ.fail (.arguments f.parameters.length vs.length)
      else if L.calls.all (σ.calls.length < ·) then
        let env ← bindAll f.env f.parameters vs
        let flow ← stmt L (invoke n) n
          ⟨env, true, σ.height + 1 + vs.length, some f.name :: σ.calls⟩ f.body
        flow.result L
      else σ.fail .stackOverflow
    | .none => σ.fail .notCallable
  | _ + 1, σ, .native b, vs => do
    if vs.length ≠ b.arity then σ.fail (.arguments b.arity vs.length)
    else σ.native b (vs.headD .nil)
  | _ + 1, σ, _, _ => σ.fail .notCallable

def script (n : Nat) (a : Stmt) : Eval Unit := do
  let _ ← (← stmt L (invoke L n) n .script a).result L

end Calls

end Semantics
end StackScript
