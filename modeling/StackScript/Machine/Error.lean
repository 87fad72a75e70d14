import StackScript.Compile.Error
import StackScript.Store.Object

/-!
# StackScript.Machine.Error

Why a run ends before the script does.

* `Fault`: what a script does wrong. It is reported with the active calls (`TraceLine`).
* `Malformed`: what makes bytecode impossible to execute.
* `Error`: everything that loading and running can fail with, and its text (`message`).
-/

namespace StackScript
namespace Machine

/-- The type of an argument that a native asks for. -/
inductive Expected where
  | number
  | string
  | array
deriving DecidableEq

namespace Expected

def text : Expected → String
  | .number => "a number"
  | .string => "a string"
  | .array => "an array"

end Expected

inductive Fault where
  | stackOverflow
  | stackUnderflow
  | notCallable
  | arguments (expected given : Nat)
  | undefinedVariable (name : String)
  | notANumber
  | notNumbers
  | notAddable
  | notAnArray
  | indexNotANumber
  | index (e : IndexError)
  | argument (native : String) (expected : Expected) (given : String)
  | emptyArray (native : String)
  /-- a fault that a function of the host reports in its own words -/
  | reported (message : String)
deriving DecidableEq

namespace Fault

def message : Fault → String
  | .stackOverflow => "Stack overflow."
  | .stackUnderflow => "Stack underflow."
  | .notCallable => "Can only call functions."
  | .arguments expected given =>
    "Expected " ++ toString expected ++ " arguments but got " ++ toString given ++ "."
  | .undefinedVariable name => "Undefined variable '" ++ name ++ "'."
  | .notANumber => "Operand must be a number."
  | .notNumbers => "Operands must be numbers."
  | .notAddable => "Operands must be two numbers or two strings."
  | .notAnArray => "Only arrays can be indexed."
  | .indexNotANumber => "Array index must be a number."
  | .index e => e.message
  | .argument native expected given =>
    native ++ ": expected " ++ expected.text ++ " but got " ++ given ++ "."
  | .emptyArray native => native ++ ": the array is empty."
  | .reported message => message

end Fault

inductive Malformed where
  | emptyStack
  | noSlot (slot : Nat)
  | noFrame
  | noInstruction (offset : Nat)
  | noConstant (index : UInt8)
  | notAName (index : UInt8)
  | constantNotAFunction (index : UInt8)
  | noUpvalue (index : UInt8)
  | noCapture (offset : Nat)
  | loopBeforeStart (distance : UInt16)
  | notAFunction (r : Ref)
  | notAClosure (r : Ref)
  | notANative (r : Ref)
  | notAnUpvalue (r : Ref)
deriving DecidableEq

namespace Malformed

def message : Malformed → String
  | .emptyStack => "The stack was empty unexpectedly"
  | .noSlot slot => "stack slot " ++ toString slot ++ " does not exist"
  | .noFrame => "no active call frame"
  | .noInstruction offset => "no instruction at offset " ++ toString offset
  | .noConstant index => "no constant at index " ++ toString index.toNat
  | .notAName index => "constant " ++ toString index.toNat ++ " is not a name"
  | .constantNotAFunction index => "constant " ++ toString index.toNat ++ " is not a function"
  | .noUpvalue index => "no upvalue " ++ toString index.toNat
  | .noCapture offset => "expected a capture at offset " ++ toString offset
  | .loopBeforeStart distance =>
    "loop of " ++ toString distance.toNat ++ " jumps before the chunk"
  | .notAFunction r => r.label ++ " is not a function"
  | .notAClosure r => r.label ++ " is not a closure"
  | .notANative r => r.label ++ " is not a native"
  | .notAnUpvalue r => r.label ++ " is not an upvalue"

end Malformed

/-- An active call: the line it is at, and the function; none for the script. -/
structure TraceLine where
  line : Nat
  function : Option String
deriving DecidableEq

namespace TraceLine

def text (t : TraceLine) : String :=
  "[line " ++ toString t.line ++ "] in " ++
    match t.function with
    | some name => name ++ "()"
    | none => "script"

end TraceLine

/-- Why the output took no more text. -/
inductive OutputFault where
  | full
deriving DecidableEq

namespace OutputFault

def message : OutputFault → String
  | .full => "disk full"

end OutputFault

inductive Error where
  | compile (errors : List Compile.Error)
  | runtime (fault : Fault) (trace : List TraceLine)
  | notExecutable
  | malformed (cause : Malformed)
  | output (cause : OutputFault)
deriving DecidableEq

namespace Error

def message : Error → String
  | .compile errors => Compile.renderErrors errors
  | .runtime fault trace => fault.message ++ String.join (trace.map fun t => "\n" ++ t.text)
  | .notExecutable => "Opcode at ip is Non-executable"
  | .malformed cause => "Malformed bytecode: " ++ cause.message
  | .output cause => "Could not write output: " ++ cause.message

end Error
end Machine
end StackScript
