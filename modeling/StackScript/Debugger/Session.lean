import StackScript.Debugger.Command
import StackScript.Debugger.Pane

/-!
# StackScript.Debugger.Session

A script executed step by step, on command.

* `Session.act`: what a command does; a blank line repeats the last command.
* `play`: everything that is drawn and written while lines are typed, up to the end. A line that
  is no command is answered by an error message and another prompt.
-/

namespace StackScript
namespace Debugger

structure Session where
  machine : Machine
  source : String
  last : Option Command

/-- What a command leads to. -/
inductive Outcome where
  | goesOn (s : Session) (printed : String)
  /-- the script has finished or was left; its whole output -/
  | closed (output : ByteArray)
  | failed (e : Machine.Error)
  | exited (code : UInt8)

/-- Loads a script. -/
def Session.start (source : String) (m : Machine) : Except Machine.Error Session :=
  match m.load source with
  | (.ok _, machine) => .ok { machine, source, last := none }
  | (.error e, _) => .error e

/-- The globals in the order of their table. -/
def globalLines (m : Machine) : List String :=
  m.globals.entries.map fun e => m.heap.display (.object e.key) ++ " = " ++ m.heap.display e.value

def unlines (lines : List String) : String := String.join (lines.map (· ++ "\n"))

/-- What a command does that was just typed. -/
def Session.perform (s : Session) (c : Command) : Outcome :=
  let m := s.machine
  let shown (lines : List String) : Outcome := .goesOn { s with last := some c } (unlines lines)
  match c with
  | .next =>
    match m.step with
    | (.running, machine) => .goesOn { s with machine, last := some c } ""
    | (.finished, machine) => .closed machine.output.octets
    | (.failed e, _) => .failed e
    | (.exited code, _) => .exited code
  | .stack => shown (stackLines m)
  | .slot i =>
    match m.stack[i]? with
    | some v => shown [m.heap.display v]
    | none => shown ["Invalid stack index"]
  | .globals => shown (globalLines m)
  | .quit => .closed m.output.octets

/-- What a line does: its command, or the last one if the line is blank. -/
def Session.act (s : Session) (typed : Option Command) : Outcome :=
  match typed.or s.last with
  | some c => s.perform c
  | none => .goesOn s ""

/-- A screen, and what is written below it until the next one. -/
structure Scene where
  drawings : List Drawing
  printed : String

/-- All that is seen: the screens, what is written after the last one, the messages of faults, and
the exit code. -/
structure Transcript where
  scenes : List Scene
  closing : ByteArray
  messages : String
  code : UInt8

/-- The control sequences that switch to a screen of its own, and back. -/
def enterScreen : String := "\x1b[?1049h"

def leaveScreen : String := "\x1b[?1049l"

def errorMessage (message : String) : String := "Error: " ++ message ++ "\n"

/-- A transcript that ends without an error. -/
def Transcript.close (scenes : List Scene) (output : ByteArray) : Transcript :=
  ⟨scenes, leaveScreen.toUTF8 ++ output, "", 0⟩

/-- A transcript that ends with an error. -/
def Transcript.abort (scenes : List Scene) (message : String) : Transcript :=
  ⟨scenes, leaveScreen.toUTF8, message, 1⟩

/-- What is written about input that is no text. -/
def notText : String :=
  let fault := "stream did not contain valid UTF-8"
  "Error: " ++ fault ++ "\n\nCaused by:\n    " ++ fault ++ "\n"

/-- The rest of a session, given the lines that will be typed and what has been written below the
current screen. The end of the lines quits. -/
def play (t : Terminal) (s : Session) (printed : String) : List ByteArray → Transcript
  | [] => .close [⟨screen t s.source s.machine, printed⟩] s.machine.output.octets
  | line :: lines =>
    let scene (more : String) : Scene := ⟨screen t s.source s.machine, printed ++ more⟩
    match String.fromUTF8? line with
    | none => .abort [scene ""] notText
    | some text =>
      match Command.parse text with
      | .error fault =>
        let rest := play t s (printed ++ prompt) lines
        { rest with messages := errorMessage fault.message ++ rest.messages }
      | .ok typed =>
        match s.act typed with
        | .goesOn s more =>
          let rest := play t s "" lines
          { rest with scenes := scene more :: rest.scenes }
        | .closed output => .close [scene ""] output
        | .failed e => .abort [scene ""] (errorMessage e.message)
        | .exited code => ⟨[scene ""], .empty, "", code⟩

/-- A whole session. -/
def transcript (t : Terminal) (source : String) (m : Machine) (lines : List ByteArray) :
    Transcript :=
  match Session.start source m with
  | .ok s => play t s "" lines
  | .error e => .abort [] (errorMessage e.message)

end Debugger
end StackScript
