import StackScript.Compile.Grammar
import StackScript.Machine.Exec

/-!
# StackScript.Machine.Run

Scripts loaded and run.

* `load`: compiles a source and sets up the call of the script.
* `step`: one instruction. An error ends all calls, so that the machine can be used again.
* `run`: at most a given number of instructions; `interpret` loads first.
-/

namespace StackScript
namespace Machine

/-- How far a machine has come. -/
inductive Progress where
  | running
  | finished
  | failed (e : Error)
  /-- the script asked to end the program -/
  | exited (code : UInt8)
deriving DecidableEq

/-- Ends a run that was stopped. -/
def stopWith (m : Machine) : Stop → Progress × Machine
  | .fault f => (.failed (.runtime f m.trace), m.reset)
  | .notExecutable => (.failed .notExecutable, m.reset)
  | .malformed cause => (.failed (.malformed cause), m.reset)
  | .output cause => (.failed (.output cause), m.reset)
  | .exit code => (.exited code, m)

/-- Whether calls are left. -/
def progress (m : Machine) : Progress := if m.frames.isEmpty then .finished else .running

/-- One instruction of the innermost call. -/
def instruction : Exec Unit := do
  execute (← fetch)

def step (m : Machine) : Progress × Machine :=
  if m.frames.isEmpty then (.finished, m)
  else
    match instruction.run m with
    | .ok _ m => (m.progress, m)
    | .error stop m => m.stopWith stop

/-- The error that a stop outside of a run is. There is nothing to trace, and no native runs that
could ask to end the program. -/
def Stop.error : Stop → Error
  | .fault f => .runtime f []
  | .notExecutable => .notExecutable
  | .malformed cause => .malformed cause
  | .output cause => .output cause
  | .exit _ => .notExecutable

/-- Sets up the call of a script that takes no arguments. -/
def enter (function : Ref) : Exec Unit := do
  let r ← allocate (.closure ⟨function, #[]⟩)
  push (.object r)
  callClosure r 0

/-- Compiles a source and sets up the call of the script, on top of the calls that are active. -/
def load (m : Machine) (source : String) : Except Error Unit × Machine :=
  let ⟨frames, stack, globals, openUpvalues, heap, output, world, hosts⟩ := m
  let compilation := Compile.compile source heap
  let m := ⟨frames, stack, globals, openUpvalues, compilation.heap, output, world, hosts⟩
  match compilation.result with
  | .error errors => (.error (.compile errors), m)
  | .ok function =>
    match (enter function).run m with
    | .ok _ m => (.ok (), m)
    | .error stop m => (.error stop.error, m)

/-- At most `n` instructions. -/
def run : Nat → Machine → Progress × Machine
  | 0, m => (.running, m)
  | n + 1, m =>
    match m.step with
    | (.running, m) => run n m
    | result => result

/-- Loads a source and runs it for at most `n` instructions. -/
def interpret (n : Nat) (source : String) (m : Machine) : Progress × Machine :=
  match m.load source with
  | (.ok _, m) => run n m
  | (.error e, m) => (.failed e, m)

end Machine
end StackScript
