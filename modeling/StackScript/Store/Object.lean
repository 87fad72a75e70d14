import StackScript.Bytecode.Chunk
import StackScript.Text.Hash

/-!
# StackScript.Store.Object

What lives on the heap.

* `Function`: the compiled body of a function; the script itself is a function without a name.
* `Closure`: a function with the upvalues it captured.
* `Upvalue`: a captured variable. It is open while the variable still has its stack slot and
  closed, with a value of its own, afterwards.
* `Native`: a function that the host provides.
-/

namespace StackScript

structure Function where
  name : Option Ref
  arity : Nat
  upvalueCount : Nat
  chunk : Chunk

namespace Function

/-- A function without a body. -/
def new (name : Option Ref) : Function := ⟨name, 0, 0, .empty⟩

end Function

structure Closure where
  function : Ref
  upvalues : Array Ref

inductive Upvalue where
  | opened (slot : Nat)
  | closed (value : Value)
deriving DecidableEq

namespace Upvalue

def slot? : Upvalue → Option Nat
  | .opened slot => some slot
  | .closed _ => none

end Upvalue

/-- The natives that every machine starts with. -/
inductive Builtin where
  | clock
  | sleep
  | fileExists
  | readFile
  | least
  | greatest
  | length
  | random
  | seed
  | exit
deriving DecidableEq

/-- What runs when a native is called: one of the machine's own, or a function of the host by its
number. -/
inductive Procedure where
  | builtin (b : Builtin)
  | host (index : Nat)
deriving DecidableEq

structure Native where
  name : String
  arity : Nat
  procedure : Procedure
deriving DecidableEq

inductive Object where
  | string (text : String)
  | function (f : Function)
  | closure (c : Closure)
  | upvalue (u : Upvalue)
  | native (n : Native)
  | array (elements : Array Value)

namespace Object

/-- The name of the kind of an object. -/
def kind : Object → String
  | .string _ => "string"
  | .function _ => "function"
  | .closure _ => "closure"
  | .upvalue _ => "upvalue"
  | .native _ => "native"
  | .array _ => "array"

end Object

inductive IndexError where
  | notInteger
  | outOfBounds
deriving DecidableEq

namespace IndexError

def message : IndexError → String
  | .notInteger => "Array index must be an integer."
  | .outOfBounds => "Array index out of bounds."

end IndexError

/-- The position that a number denotes in an array of `size` elements. -/
def position (size : Nat) (index : Float) : Except IndexError Nat :=
  match Numeral.integer? index with
  | none => .error .notInteger
  | some i => if 0 ≤ i ∧ i < size then .ok i.toNat else .error .outOfBounds

end StackScript
