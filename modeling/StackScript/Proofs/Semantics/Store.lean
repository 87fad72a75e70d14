import StackScript.Machine.Output
import StackScript.Machine.World
import StackScript.Proofs.Syntax.Tree

/-!
# StackScript.Proofs.Semantics.Store

What the language computes with, apart from stack, handles and bytecode.

* `Val`: values. Strings are their texts; arrays and closures have a number, so that they can be
  shared and changed.
* `Lambda`: a function with the variables around it, each name with its cell.
* `Store`: everything that a script changes.
* `Store.display`, `Store.answer`: what `print` shows and what natives return.
-/

namespace StackScript
namespace Semantics

open Compile (UnaryOperator BinaryOperator)
open Machine (Fault Expected Refusal Output World)
open Syntax (Stmt)

inductive Val where
  | nil
  | bool (b : Bool)
  | number (x : Float)
  | string (text : String)
  | array (id : Nat)
  | closure (id : Nat)
  | native (b : Builtin)
deriving DecidableEq

namespace Val

instance : Inhabited Val := ⟨.nil⟩

/-- Numbers are equal if they compare equal, everything else if it is the same. -/
def equals : Val → Val → Bool
  | .number x, .number y => x == y
  | v, w => decide (v = w)

/-- `nil` and `false` count as false, everything else as true. -/
def isFalsey : Val → Bool
  | .nil => true
  | .bool b => !b
  | _ => false

def text? : Val → Option String
  | .string text => some text
  | _ => none

def typeName : Val → String
  | .nil => "nil"
  | .bool _ => "bool"
  | .number _ => "number"
  | .string _ => "string"
  | .array _ => "array"
  | .closure _ => "closure"
  | .native _ => "native"

end Val

/-- The variables around a place, innermost first, each with the number of its cell. -/
abbrev Env := List (String × Nat)

structure Lambda where
  name : String
  parameters : List String
  body : Stmt
  env : Env

structure Store where
  /-- the values of all local variables there have ever been -/
  cells : Array Val
  arrays : Array (Array Val)
  closures : Array Lambda
  globals : String → Option Val
  output : Output
  world : World

section Operators

def applyUnary : UnaryOperator → Val → Except Fault Val
  | .negation, v => .ok (.bool v.isFalsey)
  | .negate, .number x => .ok (.number (-x))
  | .negate, _ => .error .notANumber

/-- An operator on two numbers. -/
def numeric (f : Float → Float → Val) : Val → Val → Except Fault Val
  | .number x, .number y => .ok (f x y)
  | _, _ => .error .notNumbers

/-- The sum of two numbers, or two strings joined. -/
def add : Val → Val → Except Fault Val
  | .number x, .number y => .ok (.number (x + y))
  | .string s, .string t => .ok (.string (s ++ t))
  | _, _ => .error .notAddable

/-- `a >= b` means not `a < b`, and `a <= b` means not `a > b`. -/
def applyBinary : BinaryOperator → Val → Val → Except Fault Val
  | .equal, v, w => .ok (.bool (v.equals w))
  | .notEqual, v, w => .ok (.bool !(v.equals w))
  | .greater, v, w => numeric (fun x y => .bool (decide (y < x))) v w
  | .greaterEqual, v, w => numeric (fun x y => .bool !(decide (x < y))) v w
  | .less, v, w => numeric (fun x y => .bool (decide (x < y))) v w
  | .lessEqual, v, w => numeric (fun x y => .bool !(decide (y < x))) v w
  | .add, v, w => add v w
  | .subtract, v, w => numeric (fun x y => .number (x - y)) v w
  | .multiply, v, w => numeric (fun x y => .number (x * y)) v w
  | .divide, v, w => numeric (fun x y => .number (x / y)) v w

end Operators

namespace Store

/-- What a script starts from: the natives as global variables. -/
def initial (output : Output) (world : World) : Store where
  cells := #[]
  arrays := #[]
  closures := #[]
  globals name := (Builtin.all.find? (·.name == name)).map .native
  output
  world

def cell (s : Store) (c : Nat) : Val := s.cells[c]?.getD .nil

def elements (s : Store) (id : Nat) : Array Val := s.arrays[id]?.getD #[]

/-- The variable with a name in no environment gets a value. -/
def define (s : Store) (name : String) (v : Val) : Store :=
  { s with globals := fun x => if x = name then some v else s.globals x }

/-- The array that is indexed, and the position of the element. -/
def element (s : Store) : Val → Val → Except Fault (Nat × Nat)
  | .array id, .number x =>
    match position (s.elements id).size x with
    | .ok i => .ok (id, i)
    | .error e => .error (.index e)
  | .array _, _ => .error .indexNotANumber
  | _, _ => .error .notAnArray

/-- A value as `print` shows it, with at most `levels` levels of arrays. -/
def displayUpTo (s : Store) : Nat → Val → String
  | _, .nil => "nil"
  | _, .bool b => if b then "true" else "false"
  | _, .number x => Numeral.text x
  | _, .string text => text
  | _, .closure id =>
    match s.closures[id]? with
    | some f => "<fn " ++ f.name ++ ">"
    | none => "<closure>"
  | _, .native _ => "<native fn>"
  | 0, .array _ => "[...]"
  | levels + 1, .array id =>
    "[" ++ ", ".intercalate ((s.elements id).toList.map (displayUpTo s levels)) ++ "]"

/-- A value as `print` shows it. -/
def display (s : Store) (v : Val) : String := s.displayUpTo Heap.displayLevels v

section Natives

variable (s : Store) (b : Builtin)

def numberArgument : Val → Machine.Answer Float
  | .number x => .ok x
  | v => Machine.refuse (.argument b.name .number v.typeName)

def stringArgument : Val → Machine.Answer String
  | .string text => .ok text
  | v => Machine.refuse (.argument b.name .string v.typeName)

def arrayArgument : Val → Machine.Answer (List Val)
  | .array id => .ok (s.elements id).toList
  | v => Machine.refuse (.argument b.name .array v.typeName)

/-- The extreme number of an array. -/
def extreme (pick : Float → Float → Float) (v : Val) : Machine.Answer Float := do
  match ← (← s.arrayArgument b v).mapM (numberArgument b) with
  | [] => Machine.refuse (.emptyArray b.name)
  | x :: xs => return xs.foldl pick x

/-- The result of a native for an argument, and the world behind it. -/
def answer (v : Val) : Machine.Answer (Val × World) :=
  match b with
  | .clock => return (.number s.world.clock, s.world.turn)
  | .sleep => do
    let _ ← numberArgument b v
    return (.nil, s.world)
  | .fileExists => do
    return (.bool (s.world.files (← stringArgument b v) != .missing), s.world.turn)
  | .readFile => do
    match s.world.files (← stringArgument b v) with
    | .text content => return (.string content, s.world.turn)
    | _ => return (.nil, s.world.turn)
  | .least => return (.number (← s.extreme b Machine.lesser v), s.world)
  | .greatest => return (.number (← s.extreme b Machine.greater v), s.world)
  | .length =>
    match v.text? with
    | some text => return (.number (Float.ofNat text.utf8ByteSize), s.world)
    | none => do return (.number (Float.ofNat (← s.arrayArgument b v).length), s.world)
  | .random =>
    let state := Machine.Generator.next (s.world.generator.getD s.world.entropy)
    return (.number (Machine.Generator.fraction state), { s.world with generator := some state })
  | .seed => do
    let seed ← numberArgument b v
    return (.nil, { s.world with generator := some seed.toUInt64 })
  | .exit => do
    let code ← numberArgument b v
    throw (.exit code.toInt32.toUInt32.toUInt8)

end Natives

end Store
end Semantics
end StackScript
