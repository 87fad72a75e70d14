import StackScript.Machine.Output
import StackScript.Machine.World

/-!
# StackScript.Machine.State

The state of the stack machine.

* `Frame`: an active call. Its callee is in the stack slot `base`, its arguments and locals are in
  the slots behind.
* `Machine`: calls, value stack, globals, open upvalues, heap, output, and the world outside.
* `Exec`: a computation on a machine. It ends early with a `Stop`, keeping what it has changed.
-/

namespace StackScript

namespace Machine

structure Frame where
  closure : Ref
  /-- the function of the closure -/
  function : Ref
  /-- offset of the next instruction -/
  ip : Nat
  base : Nat
deriving DecidableEq

/-- A function of the host: from the heap and the arguments to the heap and a value or a message. -/
abbrev HostFunction := Heap → List Value → Heap × Except String Value

end Machine

structure Machine where
  /-- innermost first -/
  frames : List Machine.Frame
  stack : Array Value
  globals : Table Value
  /-- upvalues that still have a stack slot, the highest slot first -/
  openUpvalues : List Ref
  heap : Heap
  output : Machine.Output
  world : Machine.World
  hosts : Array Machine.HostFunction

namespace Machine

/-- How deep calls nest. -/
def frameLimit : Nat := 64

/-- How many slots the stack has. -/
def stackLimit : Nat := 16384

/-- Makes a native a global variable. -/
def define (m : Machine) (name : String) (arity : Nat) (procedure : Procedure) : Machine :=
  let (heap, key) := m.heap.intern name
  let (heap, r) := heap.allocate (.native ⟨name, arity, procedure⟩)
  { m with heap, globals := (m.globals.insert key (Text.hash name) (.object r)).1 }

/-- Makes a function of the host a global variable. -/
def provide (m : Machine) (name : String) (arity : Nat) (f : HostFunction) : Machine :=
  let index := m.hosts.size
  { m with hosts := m.hosts.push f }.define name arity (.host index)

/-- A machine that has not run anything; it has the builtin natives as globals. -/
def new (output : Output) (world : World) : Machine :=
  let bare : Machine :=
    { frames := [], stack := #[], globals := .empty, openUpvalues := [], heap := .empty, output,
      world, hosts := #[] }
  Builtin.all.foldl (fun m b => m.define b.name b.arity (.builtin b)) bare

/-- The value of a global variable. -/
def global? (m : Machine) (name : String) : Option Value := do
  let key ← m.heap.findString? name
  m.globals.get? key (Text.hash name)

/-- The function that is running and the offset of its next instruction. -/
def current? (m : Machine) : Option (Function × Nat) :=
  match m.frames with
  | [] => none
  | frame :: _ => (m.heap.function? frame.function).map fun f => (f, frame.ip)

/-- The source line of the next instruction. -/
def currentLine? (m : Machine) : Option Nat :=
  match m.current? with
  | some (f, ip) => f.chunk.line? ip
  | none => none

/-- The text of a name; a question mark for what is no string. -/
def nameText (m : Machine) (r : Ref) : String := (m.heap.string? r).getD "?"

/-- The active calls, innermost first. An instruction pointer stands behind the instruction it
waits for, so the octet before it tells the line. Calls without a line are left out. -/
def trace (m : Machine) : List TraceLine :=
  m.frames.filterMap fun frame => do
    let f ← m.heap.function? frame.function
    let line ← f.chunk.line? (frame.ip - 1)
    return ⟨line, f.name.map m.nameText⟩

/-- The slot of an open upvalue; 0 for anything else. -/
def slotOf (h : Heap) (r : Ref) : Nat := ((h.upvalue? r).bind Upvalue.slot?).getD 0

/-- Closes the upvalues of the slots from `least` on, given the open ones. -/
def closeFrom (least : Nat) (stack : Array Value) : Heap → List Ref → Heap × List Ref
  | h, [] => (h, [])
  | h, r :: rest =>
    match h.upvalue? r with
    | some (.opened slot) =>
      if slot < least then (h, r :: rest)
      else closeFrom least stack (h.set r (.upvalue (.closed (stack[slot]?.getD .nil)))) rest
    | _ => closeFrom least stack h rest

/-- Gives the variables in the slots from `least` on, as far as they are captured, a place on the
heap. -/
def closeUpvalues (m : Machine) (least : Nat) : Machine :=
  let ⟨frames, stack, globals, openUpvalues, heap, output, world, hosts⟩ := m
  let (heap, openUpvalues) := closeFrom least stack heap openUpvalues
  ⟨frames, stack, globals, openUpvalues, heap, output, world, hosts⟩

/-- Ends all calls. Captured variables keep their values. -/
def reset (m : Machine) : Machine :=
  { m.closeUpvalues 0 with frames := [], stack := #[], openUpvalues := [] }

/-- The upvalue of a slot, created if the slot has none. -/
def captureSlot (m : Machine) (slot : Nat) : Machine × Ref :=
  match m.openUpvalues.find? fun r => slotOf m.heap r == slot with
  | some r => (m, r)
  | none =>
    let higher := fun r => decide (slot < slotOf m.heap r)
    let above := m.openUpvalues.takeWhile higher
    let below := m.openUpvalues.dropWhile higher
    let (heap, r) := m.heap.allocate (.upvalue (.opened slot))
    ({ m with heap, openUpvalues := above ++ r :: below }, r)

/-- Why an instruction does not let the machine go on. -/
inductive Stop where
  | fault (f : Fault)
  | notExecutable
  | malformed (cause : Malformed)
  | output (cause : OutputFault)
  | exit (code : UInt8)
deriving DecidableEq

abbrev Exec := EStateM Stop Machine

def fail {α : Type} (f : Fault) : Exec α := throw (.fault f)

def malformed {α : Type} (cause : Malformed) : Exec α := throw (.malformed cause)

/-- The value of an option, or a reason why there has to be one. -/
def require {α : Type} (x : Option α) (cause : Malformed) : Exec α :=
  match x with
  | some a => pure a
  | none => malformed cause

def push (v : Value) : Exec Unit := do
  if (← get).stack.size < stackLimit then
    modify fun m => { m with stack := m.stack.push v }
  else
    fail .stackOverflow

def pop : Exec Value := do
  match (← get).stack.back? with
  | some v =>
    modify fun m => { m with stack := m.stack.pop }
    return v
  | none => malformed .emptyStack

/-- The value `distance` slots below the top. -/
def peek (distance : Nat) : Exec Value := do
  let stack := (← get).stack
  if distance < stack.size then
    require stack[stack.size - 1 - distance]? .emptyStack
  else
    malformed .emptyStack

/-- The value of a slot. -/
def slot (i : Nat) : Exec Value := do
  require (← get).stack[i]? (.noSlot i)

def setSlot (i : Nat) (v : Value) : Exec Unit := do
  if i < (← get).stack.size then
    modify fun m => { m with stack := m.stack.setIfInBounds i v }
  else
    malformed (.noSlot i)

/-- Drops the slots from `size` on. -/
def truncate (size : Nat) : Exec Unit := modify fun m => { m with stack := m.stack.shrink size }

/-- Drops the topmost slots. -/
def drop (count : Nat) : Exec Unit :=
  modify fun m => { m with stack := m.stack.shrink (m.stack.size - count) }

/-- The innermost call. -/
def frame : Exec Frame := do
  match (← get).frames with
  | frame :: _ => return frame
  | [] => malformed .noFrame

/-- Moves the instruction pointer of the innermost call. -/
def setIp (ip : Nat) : Exec Unit := modify fun m =>
  match m.frames with
  | frame :: outer => { m with frames := { frame with ip } :: outer }
  | [] => m

/-- The chunk of the innermost call. -/
def chunk : Exec Chunk := do
  let r := (← frame).function
  match (← get).heap.function? r with
  | some f => return f.chunk
  | none => malformed (.notAFunction r)

def constant (i : UInt8) : Exec Value := do
  require (← chunk).constants[i.toNat]? (.noConstant i)

/-- A constant that names a global, with its text. -/
def nameConstant (i : UInt8) : Exec (Ref × String) := do
  match ← constant i with
  | .object r => return (r, ← require ((← get).heap.string? r) (.notAName i))
  | _ => malformed (.notAName i)

/-- An upvalue of the closure that is running. -/
def upvalueRef (i : UInt8) : Exec Ref := do
  let r := (← frame).closure
  require ((← get).heap.closure? r |>.bind fun c => c.upvalues[i.toNat]?) (.noUpvalue i)

/-- Puts an object on the heap. -/
def allocate (o : Object) : Exec Ref := modifyGet fun m =>
  let (heap, r) := m.heap.allocate o
  (r, { m with heap })

/-- The string with a text, on the heap. -/
def intern (text : String) : Exec Ref := modifyGet fun m =>
  let (heap, r) := m.heap.intern text
  (r, { m with heap })

end Machine
end StackScript
