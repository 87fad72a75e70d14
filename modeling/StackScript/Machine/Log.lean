import StackScript.Machine.Run

/-!
# StackScript.Machine.Log

What happens on the way, in readable form: the functions that are compiled and the instructions
that are executed.
-/

namespace StackScript
namespace Machine

inductive Event where
  | compiled (s : Compile.Summary)
  | executed (listing stack : String)
deriving DecidableEq

namespace Event

def text : Event → String
  | .compiled s =>
    "compiled " ++ s.name ++ " (" ++ toString s.bytes ++ " bytes, " ++ toString s.constants
      ++ " constants, " ++ toString s.upvalues ++ " upvalues)"
  | .executed listing stack => Text.padRight 40 listing ++ " " ++ stack

end Event

/-- The stack, each value between brackets, bottom first. -/
def renderStack (m : Machine) : String :=
  String.join (m.stack.toList.map fun v => "[ " ++ m.heap.display v ++ " ]")

/-- The listing of the next instruction. -/
def nextListing? (m : Machine) : Option String :=
  m.current?.map fun (f, ip) => (f.chunk.listInstruction m.heap ip).1

/-- The next instruction as an event; none if nothing can be decoded. -/
def nextEvent? (m : Machine) : Option Event :=
  match m.current? with
  | some (f, ip) =>
    if (f.chunk.read? ip).isSome then
      some (.executed (f.chunk.listInstruction m.heap ip).1 m.renderStack)
    else none
  | none => none

/-- As `run`, with the events in order behind `events`. -/
def runLogged : Nat → Machine → Array Event → Progress × Machine × Array Event
  | 0, m, events => (.running, m, events)
  | n + 1, m, events =>
    let events := events ++ m.nextEvent?.toArray
    match m.step with
    | (.running, m) => runLogged n m events
    | (result, m) => (result, m, events)

/-- As `interpret`, with the events in order. -/
def interpretLogged (n : Nat) (source : String) (m : Machine) :
    Progress × Machine × Array Event :=
  let events := ((Compile.compile source m.heap).summaries.map .compiled).toArray
  match m.load source with
  | (.ok _, m) => runLogged n m events
  | (.error e, m) => (.failed e, m, events)

end Machine
end StackScript
