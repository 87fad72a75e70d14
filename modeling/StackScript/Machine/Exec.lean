import StackScript.Bytecode.Listing
import StackScript.Machine.State

/-!
# StackScript.Machine.Exec

What each instruction does to the machine. Every operand and every stack slot is checked, so any
bytecode can be executed; what the compiler emits never fails these checks.

* `fetch`: decodes the next instruction and moves on behind it.
* `execute`: one instruction.
-/

namespace StackScript
namespace Machine

/-- The next instruction. The instruction pointer is moved behind it. -/
def fetch : Exec Instruction := do
  let ip := (← frame).ip
  let i ← require ((← chunk).read? ip) (.noInstruction ip)
  setIp (ip + i.size)
  return i

/-- The two topmost values, as numbers; the upper one is the right operand. -/
def popNumbers : Exec (Float × Float) := do
  match ← peek 1, ← peek 0 with
  | .number a, .number b =>
    drop 2
    return (a, b)
  | _, _ => fail .notNumbers

def numeric (f : Float → Float → Float) : Exec Unit := do
  let (a, b) ← popNumbers
  push (.number (f a b))

def comparison (f : Float → Float → Bool) : Exec Unit := do
  let (a, b) ← popNumbers
  push (.bool (f a b))

def readLocal (i : UInt8) : Exec Unit := do
  let base := (← frame).base
  push (← slot (base + i.toNat))

/-- An assignment is an expression, so its value stays on the stack. -/
def assignLocal (i : UInt8) : Exec Unit := do
  let base := (← frame).base
  let v ← peek 0
  setSlot (base + i.toNat) v

def readGlobal (i : UInt8) : Exec Unit := do
  let (key, name) ← nameConstant i
  match (← get).globals.get? key (Text.hash name) with
  | some v => push v
  | none => fail (.undefinedVariable name)

def defineGlobal (i : UInt8) : Exec Unit := do
  let (key, name) ← nameConstant i
  let v ← peek 0
  modify fun m => { m with globals := (m.globals.insert key (Text.hash name) v).1 }
  let _ ← pop

/-- Assigning to a global does not define it: a new entry is taken back. -/
def assignGlobal (i : UInt8) : Exec Unit := do
  let (key, name) ← nameConstant i
  let v ← peek 0
  let isNew ← modifyGet fun m =>
    let (globals, isNew) := m.globals.insert key (Text.hash name) v
    (isNew, { m with globals })
  if isNew then
    modify fun m => { m with globals := (m.globals.erase key (Text.hash name)).1 }
    fail (.undefinedVariable name)

def readUpvalue (i : UInt8) : Exec Unit := do
  let r ← upvalueRef i
  match (← get).heap.upvalue? r with
  | some (.opened s) => push (← slot s)
  | some (.closed v) => push v
  | none => malformed (.notAnUpvalue r)

def assignUpvalue (i : UInt8) : Exec Unit := do
  let r ← upvalueRef i
  let v ← peek 0
  match (← get).heap.upvalue? r with
  | some (.opened s) => setSlot s v
  | some (.closed _) => modify fun m => { m with heap := m.heap.set r (.upvalue (.closed v)) }
  | none => malformed (.notAnUpvalue r)

/-- The array that is indexed, and the position of the element. -/
def element (target index : Value) : Exec (Ref × Nat) := do
  match target with
  | .object r =>
    match (← get).heap.array? r with
    | some elements =>
      match index with
      | .number x =>
        match position elements.size x with
        | .ok i => return (r, i)
        | .error e => fail (.index e)
      | _ => fail .indexNotANumber
    | none => fail .notAnArray
  | _ => fail .notAnArray

def readElement : Exec Unit := do
  let index ← pop
  let target ← pop
  let (r, i) ← element target index
  push (((← get).heap.array? r).bind (·[i]?) |>.getD .nil)

def assignElement : Exec Unit := do
  let v ← pop
  let index ← pop
  let target ← pop
  let (r, i) ← element target index
  modify fun m => { m with heap := m.heap.setElement r i v }
  push v

def compareEqual : Exec Unit := do
  let b ← pop
  let a ← pop
  push (.bool (a == b))

/-- The sum of two numbers, or two strings joined. -/
def sum (a b : Value) : Exec Value := do
  match a, b with
  | .number x, .number y => return .number (x + y)
  | _, _ =>
    let h := (← get).heap
    match h.text? a, h.text? b with
    | some s, some t => return .object (← intern (s ++ t))
    | _, _ => fail .notAddable

def addOperands : Exec Unit := do
  let a ← peek 1
  let b ← peek 0
  let v ← sum a b
  drop 2
  push v

def invertTruth : Exec Unit := do
  let v ← pop
  push (.bool v.isFalsey)

def negateNumber : Exec Unit := do
  match ← peek 0 with
  | .number x =>
    let _ ← pop
    push (.number (-x))
  | _ => fail .notANumber

def printTop : Exec Unit := do
  let v ← pop
  let fits ← modifyGet fun m =>
    let pieces := m.heap.pieces v ++ ["\n"]
    let ⟨frames, stack, globals, openUpvalues, heap, output, world, hosts⟩ := m
    let (output, fits) := output.writeEach pieces
    (fits, ⟨frames, stack, globals, openUpvalues, heap, output, world, hosts⟩)
  unless fits do
    throw (.output .full)

def jumpAhead (distance : UInt16) : Exec Unit := do
  setIp ((← frame).ip + distance.toNat)

def jumpAheadIfFalse (distance : UInt16) : Exec Unit := do
  if (← peek 0).isFalsey then
    jumpAhead distance

def jumpBack (distance : UInt16) : Exec Unit := do
  let ip := (← frame).ip
  if distance.toNat ≤ ip then
    setIp (ip - distance.toNat)
  else
    malformed (.loopBeforeStart distance)

/-- Starts a call of a closure whose arguments are on top of the stack. -/
def callClosure (r : Ref) (count : Nat) : Exec Unit := do
  let h := (← get).heap
  match h.closure? r with
  | none => malformed (.notAClosure r)
  | some c =>
    let arity := (h.function? c.function).elim 0 Function.arity
    if count ≠ arity then
      fail (.arguments arity count)
    else if (← get).frames.length < frameLimit then
      modify fun m => { m with
        frames := ⟨r, c.function, 0, m.stack.size - count - 1⟩ :: m.frames }
    else
      fail .stackOverflow

/-- The result of a native for arguments. -/
def runProcedure (p : Procedure) (arguments : List Value) : Exec Value := do
  match p with
  | .builtin b =>
    let m ← get
    match b.call m.world m.heap (arguments.headD .nil) with
    | .ok (v, world, heap) =>
      modify fun m => { m with world, heap }
      return v
    | .error (.fault f) => fail f
    | .error (.exit code) => throw (.exit code)
  | .host index =>
    match (← get).hosts[index]? with
    | none => fail .notCallable
    | some f =>
      let result ← modifyGet fun m =>
        let (heap, result) := f m.heap arguments
        (result, { m with heap })
      match result with
      | .ok v => return v
      | .error message => fail (.reported message)

/-- Calls a native whose arguments are on top of the stack, and puts its result in their place. -/
def callNative (r : Ref) (count : Nat) : Exec Unit := do
  match (← get).heap.native? r with
  | none => malformed (.notANative r)
  | some n =>
    if count ≠ n.arity then
      fail (.arguments n.arity count)
    else
      let stack := (← get).stack
      let start := stack.size - count
      let v ← runProcedure n.procedure (stack.extract start stack.size).toList
      truncate (start - 1)
      push v

def startCall (count : UInt8) : Exec Unit := do
  match ← peek count.toNat with
  | .object r =>
    let h := (← get).heap
    if (h.closure? r).isSome then
      callClosure r count.toNat
    else if (h.native? r).isSome then
      callNative r count.toNat
    else
      fail .notCallable
  | _ => fail .notCallable

/-- The upvalues of a new closure, read from the captures at the instruction pointer. -/
def captures (base : Nat) : Nat → Array Ref → Exec (Array Ref)
  | 0, upvalues => return upvalues
  | n + 1, upvalues => do
    let ip := (← frame).ip
    match (← chunk).read? ip with
    | some (.capture c) =>
      let r ← if c.isLocal then modifyGet fun m => (m.captureSlot (base + c.index.toNat)).swap
        else upvalueRef c.index
      setIp (ip + 3)
      captures base n (upvalues.push r)
    | _ => malformed (.noCapture ip)

/-- Makes a closure of a function in the pool. -/
def makeClosure (i : UInt8) : Exec Unit := do
  match ← constant i with
  | .object r =>
    match (← get).heap.function? r with
    | some f =>
      let upvalues ← captures (← frame).base f.upvalueCount #[]
      push (.object (← allocate (.closure ⟨r, upvalues⟩)))
    | none => malformed (.constantNotAFunction i)
  | _ => malformed (.constantNotAFunction i)

/-- Moves the topmost local to the heap. -/
def closeTop : Exec Unit := do
  modify fun m => m.closeUpvalues (m.stack.size - 1)
  let _ ← pop

def makeArray (count : UInt8) : Exec Unit := do
  let stack := (← get).stack
  if count.toNat ≤ stack.size then
    let start := stack.size - count.toNat
    let elements := stack.extract start stack.size
    truncate start
    push (.object (← allocate (.array elements)))
  else
    fail .stackUnderflow

/-- Ends the innermost call. Its callee and its locals are dropped, and the result is pushed for
the caller, if there is one. -/
def endCall : Exec Unit := do
  let result ← pop
  let ended ← frame
  modify fun m => { m with frames := m.frames.tail }.closeUpvalues ended.base
  truncate ended.base
  unless (← get).frames.isEmpty do
    push result

def execute : Instruction → Exec Unit
  | .constant i => do push (← constant i)
  | .pushNil => push .nil
  | .pushTrue => push (.bool true)
  | .pushFalse => push (.bool false)
  | .pop => do let _ ← pop
  | .getLocal i => readLocal i
  | .setLocal i => assignLocal i
  | .getGlobal i => readGlobal i
  | .defineGlobal i => defineGlobal i
  | .setGlobal i => assignGlobal i
  | .getUpvalue i => readUpvalue i
  | .setUpvalue i => assignUpvalue i
  | .getIndex => readElement
  | .setIndex => assignElement
  | .equal => compareEqual
  | .greater => comparison fun a b => decide (b < a)
  | .less => comparison fun a b => decide (a < b)
  | .add => addOperands
  | .subtract => numeric (· - ·)
  | .multiply => numeric (· * ·)
  | .divide => numeric (· / ·)
  | .negation => invertTruth
  | .negate => negateNumber
  | .print => printTop
  | .jump d => jumpAhead d
  | .jumpIfFalse d => jumpAheadIfFalse d
  | .loop d => jumpBack d
  | .call n => startCall n
  | .closure i => makeClosure i
  | .capture _ => throw .notExecutable
  | .closeUpvalue => closeTop
  | .array n => makeArray n
  | .ret => endCall

end Machine
end StackScript
