import StackScript.Machine.Query
import StackScript.Shell

/-!
# StackScript.Main

The program: `stackscript [-d | -b] [script]`. Without a script, lines are read from a prompt; with
`-d` the script's bytecode is listed, with `-b` the script is executed step by step.

Here are only reading, writing, waiting and the clock; what is written is decided in `Shell` and
`Debugger`.
-/

namespace StackScript
namespace Main

/-- Nanoseconds when the clock was first looked at. -/
abbrev Start := IO.Ref (Option Nat)

def secondsSince (start : Start) : IO Float := do
  let now ← IO.monoNanosNow
  match ← start.get with
  | some first => return Float.ofNat (now - first) / 1000000000
  | none =>
    start.set (some now)
    return 0

/-- What the system answers to reading a directory; a path that leads through a file has another
code. -/
def directoryCode : UInt32 := 21

def fileAt (path : String) : IO Machine.File := do
  try
    return .text (← IO.FS.readFile path)
  catch
    | .noFileOrDirectory .. => return .missing
    | .inappropriateType _ code _ =>
      return if code = directoryCode then .unreadable else .missing
    | _ => return .unreadable

/-- Finds out what the next instruction asks about the outside. -/
def inform (start : Start) (m : Machine) : IO Machine := do
  match m.query? with
  | none => return m
  | some .time =>
    let clock ← secondsSince start
    return { m with world := { m.world with clock } }
  | some (.pause micros) =>
    IO.sleep (micros.toNat / 1000).toUInt32
    return m
  | some (.file path) =>
    let file ← fileAt path
    let files := fun other => if other = path then file else m.world.files other
    return { m with world := { m.world with files } }
  | some .entropy =>
    return { m with world := { m.world with entropy := (← IO.monoNanosNow).toUInt64 } }

def writeOctets (octets : ByteArray) : IO Unit := do
  let out ← IO.getStdout
  out.write octets
  out.flush

/-- Writes what the machine has printed. -/
def flush (m : Machine) : IO Machine := do
  let (written, m) := Shell.takeOutput m
  unless written.isEmpty do
    writeOctets written
  return m

partial def run (start : Start) (m : Machine) : IO (Machine.Progress × Machine) := do
  let (progress, m) := (← inform start m).step
  let m ← flush m
  match progress with
  | .running => run start m
  | _ => return (progress, m)

def interpret (start : Start) (source : String) (m : Machine) :
    IO (Machine.Progress × Machine) := do
  match m.load source with
  | (.ok _, m) => run start m
  | (.error e, m) => return (.failed e, m)

def present (t : Shell.Transcript) : IO UInt32 := do
  writeOctets t.stdout
  IO.eprint t.stderr
  return t.code.toUInt32

def runScript (start : Start) (source : String) : IO UInt32 := do
  let (progress, _) ← interpret start source (.new .unlimited .still)
  let (code, message) := (Shell.ending progress).getD (0, "")
  IO.eprint message
  return code.toUInt32

/-- The octets up to the end of a line, behind those that were read. -/
partial def readOctets (line : ByteArray) : IO ByteArray := do
  match (← (← IO.getStdin).read 1).toList with
  | [] => return line
  | octet :: _ =>
    let line := line.push octet
    if octet = 10 then return line else readOctets line

/-- The next line of the input, empty at its end; none if it is no text. -/
def readLine : IO (Option String) := do
  return String.fromUTF8? (← readOctets .empty)

partial def converse (start : Start) (m : Machine) : IO UInt32 := do
  writeOctets Debugger.prompt.toUTF8
  match ← readLine with
  | none =>
    IO.eprint Debugger.notText
    return 1
  | some "" => return 0
  | some line =>
    let (progress, m) ← interpret start (String.ofList (Text.endLine line.toList)) m
    match progress with
    | .exited code => return code.toUInt32
    | .failed e =>
      IO.eprintln e.message
      converse start m
    | _ => converse start m

def moveTo (x y : Nat) : String := "\x1b[" ++ toString (y + 1) ++ ";" ++ toString (x + 1) ++ "H"

def setting (name : String) (missing : Nat) : IO Nat := do
  return ((← IO.getEnv name).bind String.toNat?).getD missing

/-- The terminal that the program was started on, its cursor in the lowest row. -/
def terminal : IO Debugger.Terminal := do
  let width ← setting "COLUMNS" 80
  let height ← setting "LINES" 24
  return ⟨width.toUInt16, height.toUInt16, 0, height - 1⟩

def draw (t : Debugger.Terminal) (s : Debugger.Session) : IO Unit := do
  for d in Debugger.screen t s.source s.machine do
    IO.print (moveTo d.x d.y ++ d.text)
  (← IO.getStdout).flush

/-- How a session with a terminal ends. -/
inductive Ending where
  | outcome (o : Debugger.Outcome)
  | notText

/-- Draws the screen if it has changed, and does what the next line says. -/
partial def stepwise (start : Start) (t : Debugger.Terminal) (s : Debugger.Session)
    (changed : Bool) : IO Ending := do
  if changed then
    draw t s
  match ← readLine with
  | none => return .notText
  | some "" => return .outcome (s.perform .quit)
  | some line =>
    match Debugger.Command.parse line with
    | .error fault =>
      IO.eprint (Debugger.errorMessage fault.message)
      IO.print Debugger.prompt
      (← IO.getStdout).flush
      stepwise start t s false
    | .ok typed =>
      let steps := typed.or s.last = some .next
      let machine ← if steps then inform start s.machine else pure s.machine
      match { s with machine }.act typed with
      | .goesOn s printed =>
        IO.print printed
        stepwise start t s true
      | o => return .outcome o

/-- Leaves the debugger's screen with a message. -/
def failure (message : String) : IO UInt32 := do
  IO.print Debugger.leaveScreen
  IO.eprint message
  return 1

def debug (start : Start) (source : String) : IO UInt32 := do
  IO.print Debugger.enterScreen
  match Debugger.Session.start source (.new .unlimited .still) with
  | .error e => failure (Debugger.errorMessage e.message)
  | .ok s =>
    match ← stepwise start (← terminal) s true with
    | .outcome (.closed output) =>
      IO.print Debugger.leaveScreen
      writeOctets output
      return 0
    | .outcome (.failed e) => failure (Debugger.errorMessage e.message)
    | .outcome (.exited code) => return code.toUInt32
    | .outcome (.goesOn _ _) => return 0
    | .notText => failure Debugger.notText

/-- The script at a path, or why it cannot be read. -/
def source (path : String) : IO (Except String String) := do
  try
    return .ok (← IO.FS.readFile path)
  catch
    | .noFileOrDirectory .. => return .error Shell.FileFault.missing.message
    | .inappropriateType _ code _ =>
      return .error
        (if code = directoryCode then Shell.FileFault.directory else .notADirectory).message
    | .userError _ => return .error Shell.FileFault.notText.message
    | e => return .error (toString e)

def withScript (path : String) (action : String → IO UInt32) : IO UInt32 := do
  match ← source path with
  | .ok text => action text
  | .error reason => present (Shell.unreadable path reason)

def perform (args : List String) : IO UInt32 := do
  let start ← IO.mkRef none
  match args with
  | [] | ["-d"] | ["-b"] => converse start (.new .unlimited .still)
  | ["-d", path] | [path, "-d"] => withScript path fun text => present (Shell.listScript text)
  | ["-b", path] | [path, "-b"] => withScript path (debug start)
  | [path] => withScript path (runScript start)
  | _ =>
    IO.eprintln "Usage: stackscript [-d | -b] [script]"
    return 2

end Main
end StackScript

def main (args : List String) : IO UInt32 := StackScript.Main.perform args
