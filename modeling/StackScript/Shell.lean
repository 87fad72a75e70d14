import StackScript.Debugger.Session

/-!
# StackScript.Shell

The command line without its input and output: what is written, and the exit code.

* `runScript`, `listScript`: a script file run, or its bytecode listed.
* `reply`: the answer to a line typed at the prompt. All lines run on one machine.
* `converse`: everything that is written while lines are read, up to the end.
-/

namespace StackScript
namespace Shell

structure Transcript where
  code : UInt8
  stdout : ByteArray
  stderr : String

/-- Why a file cannot be read. -/
inductive FileFault where
  | missing
  | directory
  | notADirectory
  | notText
deriving DecidableEq

namespace FileFault

def message : FileFault → String
  | .missing => "No such file or directory (os error 2)"
  | .directory => "Is a directory (os error 21)"
  | .notADirectory => "Not a directory (os error 20)"
  | .notText => "stream did not contain valid UTF-8"

end FileFault

/-- What is written about a script file that cannot be read, with the reason in words. -/
def unreadable (path reason : String) : Transcript :=
  ⟨1, .empty, "Error: Could not read " ++ path ++ "\n\nCaused by:\n    " ++ reason ++ "\n"⟩

/-- The exit code after an error. -/
def exitCode : Machine.Error → UInt8
  | .compile _ => 65
  | _ => 70

/-- What a machine has written, and the machine with nothing written. -/
def takeOutput (m : Machine) : ByteArray × Machine :=
  (m.output.octets, { m with output := { m.output with octets := .empty } })

/-- What is left to write and do when a script has ended; none if it has not. -/
def ending (p : Machine.Progress) : Option (UInt8 × String) :=
  match p with
  | .running => none
  | .finished => some (0, "")
  | .failed e => some (exitCode e, e.message ++ "\n")
  | .exited code => some (code, "")

/-- A script run for at most `n` instructions; none if it takes more. -/
def runScript (n : Nat) (world : Machine.World) (source : String) : Option Transcript :=
  let (progress, m) := Machine.interpret n source (.new .unlimited world)
  (ending progress).map fun (code, message) => ⟨code, m.output.octets, message⟩

/-- The bytecode of a script. -/
def listScript (source : String) : Transcript :=
  let compilation := Compile.compile source .empty
  match compilation.result with
  | .ok function => ⟨0, (compilation.heap.listFunction function).toUTF8, ""⟩
  | .error errors => ⟨65, .empty, Compile.renderErrors errors ++ "\n"⟩

open Debugger (prompt)

/-- What a line at the prompt leads to. -/
inductive Reply where
  /-- the conversation goes on; what is written to the two channels -/
  | answered (m : Machine) (stdout : ByteArray) (stderr : String)
  /-- the script asked to end the program, or the line was no text -/
  | ended (code : UInt8) (stdout : ByteArray) (stderr : String)
  /-- the line takes more instructions than allowed -/
  | unfinished

/-- Runs a line, for at most `n` instructions. A line that is no text ends the conversation. -/
def reply (n : Nat) (m : Machine) (line : ByteArray) : Reply :=
  match String.fromUTF8? line with
  | none => .ended 1 .empty Debugger.notText
  | some text =>
    let source := String.ofList (Text.endLine text.toList)
    let (progress, m) := Machine.interpret n source m
    let (written, m) := takeOutput m
    match progress with
    | .running => .unfinished
    | .finished => .answered m written ""
    | .failed e => .answered m written (e.message ++ "\n")
    | .exited code => .ended code written ""

/-- What is written while lines are read, each of them run for at most `n` instructions; none if
one takes more. There is a prompt before each line and before the end. -/
def converse (n : Nat) (m : Machine) : List ByteArray → Option Transcript
  | [] => some ⟨0, prompt.toUTF8, ""⟩
  | line :: lines =>
    match reply n m line with
    | .answered m stdout stderr =>
      (converse n m lines).map fun rest =>
        ⟨rest.code, prompt.toUTF8 ++ stdout ++ rest.stdout, stderr ++ rest.stderr⟩
    | .ended code stdout stderr => some ⟨code, prompt.toUTF8 ++ stdout, stderr⟩
    | .unfinished => none

/-- The lines of an input, with their line ends. -/
def inputLines (input : ByteArray) : List ByteArray :=
  (Text.cutAfter (· == 10) input.toList).map fun line => ⟨line.toArray⟩

end Shell
end StackScript
