import StackScript.Machine.Run

/-!
# StackScript.Machine.Query

What the next instruction needs to know about the outside. A machine looks at its `World` only. A
world can tell beforehand what every look finds; whoever runs a machine with a real clock and real
files asks `query?` before each step and puts the answer into the world, for the next look to find.
-/

namespace StackScript
namespace Machine

inductive Query where
  | time
  /-- waiting for a number of microseconds -/
  | pause (micros : UInt64)
  | file (path : String)
  /-- something to start the random generator from -/
  | entropy
deriving DecidableEq

/-- What a native asks when it is called with an argument. -/
def queryOf (b : Builtin) (m : Machine) (argument : Value) : Option Query :=
  match b with
  | .clock => some .time
  | .sleep => argument.number?.map fun x => .pause x.toUInt64
  | .fileExists | .readFile => (m.heap.text? argument).map .file
  | .random => if m.world.generator.isNone then some .entropy else none
  | _ => none

/-- What the next instruction asks. -/
def query? (m : Machine) : Option Query := do
  let (f, ip) ← m.current?
  match f.chunk.read? ip with
  | some (.call count) =>
    if count.toNat < m.stack.size then
      let callee ← m.stack[m.stack.size - 1 - count.toNat]?
      let native ← m.heap.native? (← callee.ref?)
      match native.procedure with
      | .builtin b => queryOf b m (if count = 0 then .nil else m.stack.back?.getD .nil)
      | .host _ => none
    else none
  | _ => none

end Machine
end StackScript
