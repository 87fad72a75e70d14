import StackScript.Machine.Error
import StackScript.Store.Heap

/-!
# StackScript.Machine.World

What a machine's own natives know about the world outside, and the natives themselves.

* `Outside`: what a look at the outside finds, the time and the files.
* `World`: what the next look finds, how it changes from one look to the next, and the state of the
  random generator. `World.turn` is a look.
* `Generator.next`: a linear congruential generator on 64 bits.
* `Builtin.call`: the result of a native.
-/

namespace StackScript
namespace Machine

/-- What is at a path: nothing, something that cannot be read as text, or a text. -/
inductive File where
  | missing
  | unreadable
  | text (content : String)
deriving DecidableEq

/-- What a look at the outside finds. -/
structure Outside where
  /-- seconds since the first look at the clock -/
  clock : Float
  files : String → File

/-- What the next look at the outside finds, and everything that comes of it later. -/
structure World extends Outside where
  /-- how many looks there have been -/
  looks : Nat
  /-- what is found behind each look, the first of which is look 0; none if nothing is different -/
  changes : Nat → Option Outside
  /-- what the generator starts from if it was not seeded -/
  entropy : UInt64
  /-- none until the generator is first used or seeded -/
  generator : Option UInt64

namespace World

/-- A world that stands still and has no files. -/
def still : World where
  clock := 0
  files _ := .missing
  looks := 0
  changes _ := none
  entropy := 0
  generator := none

instance : Inhabited World := ⟨still⟩

/-- The world behind a look. -/
def turn (w : World) : World :=
  { w with
    toOutside := (w.changes w.looks).getD w.toOutside
    looks := w.looks + 1 }

end World

namespace Generator

def multiplier : UInt64 := 6364136223846793005

def increment : UInt64 := 1442695040888963407

def next (state : UInt64) : UInt64 := state * multiplier + increment

/-- The number in `[0, 1)` that a state stands for: its 53 high bits, which are the random ones. -/
def fraction (state : UInt64) : Float := (state >>> 11).toFloat / (9007199254740992 : Float)

end Generator

/-- The lesser of two numbers; of a number and NaN the number, and of two equal ones, which can be
zeros of different sign, the second. -/
def lesser (a b : Float) : Float := if b.isNaN then a else if a < b then a else b

/-- The greater of two numbers; of a number and NaN the number, and of two equal ones the second. -/
def greater (a b : Float) : Float := if b.isNaN then a else if b < a then a else b

/-- Why a native gives no result: a fault, or the script asked to end the program. -/
inductive Refusal where
  | fault (f : Fault)
  | exit (code : UInt8)
deriving DecidableEq

abbrev Answer := Except Refusal

def refuse {α : Type} (f : Fault) : Answer α := .error (.fault f)

def numberArgument (native : String) (h : Heap) (v : Value) : Answer Float :=
  match v.number? with
  | some x => .ok x
  | none => refuse (.argument native .number (h.typeName v))

def stringArgument (native : String) (h : Heap) (v : Value) : Answer String :=
  match h.text? v with
  | some text => .ok text
  | none => refuse (.argument native .string (h.typeName v))

def arrayArgument (native : String) (h : Heap) (v : Value) : Answer (Array Value) :=
  match h.elements? v with
  | some elements => .ok elements
  | none => refuse (.argument native .array (h.typeName v))

/-- The numbers of an array. -/
def numbers (native : String) (h : Heap) : List Value → Answer (List Float)
  | [] => .ok []
  | v :: vs => do
    let x ← numberArgument native h v
    return x :: (← numbers native h vs)

/-- The extreme number of an array. -/
def extreme (native : String) (pick : Float → Float → Float) (h : Heap) (v : Value) :
    Answer Float := do
  match ← numbers native h (← arrayArgument native h v).toList with
  | [] => refuse (.emptyArray native)
  | x :: xs => return xs.foldl pick x

end Machine

namespace Builtin

open Machine

/-- The order in which the natives are defined. -/
def all : List Builtin :=
  [.clock, .sleep, .fileExists, .readFile, .least, .greatest, .length, .random, .seed, .exit]

def name : Builtin → String
  | .clock => "clock"
  | .sleep => "sleep"
  | .fileExists => "exists"
  | .readFile => "readFile"
  | .least => "min"
  | .greatest => "max"
  | .length => "len"
  | .random => "rand"
  | .seed => "srand"
  | .exit => "exit"

def arity : Builtin → Nat
  | .clock | .random => 0
  | _ => 1

/-- The result of a native for an argument. The clock and the files may be different at every look.
`length` counts the octets of a string. -/
def call (b : Builtin) (w : World) (h : Heap) (argument : Value) : Answer (Value × World × Heap) :=
  match b with
  | .clock => return (.number w.clock, w.turn, h)
  | .sleep => do
    let _ ← numberArgument b.name h argument
    return (.nil, w, h)
  | .fileExists => do
    let path ← stringArgument b.name h argument
    return (.bool (w.files path != .missing), w.turn, h)
  | .readFile => do
    match w.files (← stringArgument b.name h argument) with
    | .text content =>
      let (h, r) := h.intern content
      return (.object r, w.turn, h)
    | _ => return (.nil, w.turn, h)
  | .least => return (.number (← extreme b.name lesser h argument), w, h)
  | .greatest => return (.number (← extreme b.name greater h argument), w, h)
  | .length =>
    match h.text? argument with
    | some text => return (.number (Float.ofNat text.utf8ByteSize), w, h)
    | none => do
      return (.number (Float.ofNat (← arrayArgument b.name h argument).size), w, h)
  | .random =>
    let state := Generator.next (w.generator.getD w.entropy)
    return (.number (Generator.fraction state), { w with generator := some state }, h)
  | .seed => do
    let seed ← numberArgument b.name h argument
    return (.nil, { w with generator := some seed.toUInt64 }, h)
  | .exit => do
    let code ← numberArgument b.name h argument
    throw (.exit code.toInt32.toUInt32.toUInt8)

end Builtin
end StackScript
