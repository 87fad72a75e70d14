import StackScript.Compile.Draft
import StackScript.Compile.Rule
import StackScript.Store.Heap

/-!
# StackScript.Compile.State

What the compiler knows while it reads a source from front to back, and the steps that its
grammar is made of.

* `State`: the tokens to come, the errors so far, the heap, and the functions being compiled.
* `Compiler`: a computation on a state; `none` means that the recursion budget ran out.
* After an error the compiler is `panicking`: further errors are not recorded until it has found
  the start of another statement (`recover`).
-/

namespace StackScript
namespace Compile

/-- The figures of a function that was compiled. -/
structure Summary where
  name : String
  bytes : Nat
  constants : Nat
  upvalues : Nat
deriving DecidableEq

structure State where
  /-- the tokens behind `current` -/
  rest : List Token
  current : Token
  previous : Token
  panicking : Bool
  /-- oldest first -/
  errors : Array Error
  heap : Heap
  draft : Draft
  /-- innermost first -/
  enclosing : List Draft
  summaries : Array Summary

abbrev Compiler := StateT State Option

namespace State

/-- The state before the first token. -/
def new (tokens : List Token) (heap : Heap) : State :=
  let nothing : Token := ⟨.eof, "", .start⟩
  { rest := tokens, current := nothing, previous := nothing, panicking := false, errors := #[],
    heap, draft := .new .script none, enclosing := [], summaries := #[] }

/-- Records an error at a token, unless the state is panicking. -/
def reportAt (s : State) (t : Token) (fault : Fault) : State :=
  if s.panicking then s
  else
    { s with
      panicking := true
      errors := s.errors.push ⟨t, fault⟩ }

/-- Makes the first proper token of a list the current one; faults of the source in front of it
are reported. -/
def take (s : State) : List Token → State
  | [] => { s with rest := [] }
  | t :: ts =>
    match t.kind with
    | .fault fault => take (s.reportAt t (.lexical fault)) ts
    | _ => { s with current := t, rest := ts }

/-- Moves on by one token. At the end of the source the current token stays the end. -/
def advance (s : State) : State :=
  let tokens := s.rest
  take { s with previous := s.current } tokens

/-- Whether a token can begin a statement after an error. -/
def isBoundary : TokenKind → Bool
  | .keyword k =>
    match k with
    | .class | .fun | .var | .for | .if | .while | .print | .return => true
    | _ => false
  | _ => false

/-- Skips tokens up to what looks like the start of a statement, but at most `steps`. -/
def skip : Nat → State → State
  | 0, s => s
  | steps + 1, s =>
    if s.current.kind = .eof || s.previous.kind = .punctuation .semicolon
        || isBoundary s.current.kind then s
    else skip steps s.advance

/-- Ends panicking at the start of another statement or at the end. -/
def recover (s : State) : State :=
  let s := { s with panicking := false }
  skip (s.rest.length + 1) s

/-- Appends an instruction for the line of the previous token. -/
def emit (s : State) (i : Instruction) : State :=
  let line := s.previous.line
  { s with draft := { s.draft with chunk := s.draft.chunk.emit i line } }

/-- Drops the locals of scopes deeper than the current one, innermost first. A captured local is
moved to the heap, any other is popped. -/
def dropLocals (s : State) : List Local → State
  | [] => { s with draft := { s.draft with locals := [] } }
  | l :: outer =>
    if Draft.declaredWithin (s.draft.depth + 1) l then
      dropLocals (s.emit (if l.captured then .closeUpvalue else .pop)) outer
    else { s with draft := { s.draft with locals := l :: outer } }

end State

/-- The recursion budget ran out. -/
def outOfFuel {α : Type} : Compiler α := fun _ => none

def advance : Compiler Unit := modify State.advance

/-- Reports a fault at the token that was read last. -/
def report (fault : Fault) : Compiler Unit := modify fun s => s.reportAt s.previous fault

/-- Reports a fault at the next token. -/
def reportCurrent (fault : Fault) : Compiler Unit := modify fun s => s.reportAt s.current fault

/-- Whether the next token is of a kind. -/
def check (kind : TokenKind) : Compiler Bool := return (← get).current.kind == kind

/-- Reads the next token if it is of a kind, and tells whether it was. -/
def accept (kind : TokenKind) : Compiler Bool := do
  if ← check kind then
    advance
    return true
  else
    return false

/-- Reads a token that has to be of a kind. -/
def consume (kind : TokenKind) (what : Expectation) : Compiler Unit := do
  unless ← accept kind do
    reportCurrent (.expected what)

def emit (i : Instruction) : Compiler Unit := modify fun s => s.emit i

def emitAll : List Instruction → Compiler Unit
  | [] => pure ()
  | i :: is => do
    emit i
    emitAll is

/-- A function without a return statement returns `nil`. -/
def emitReturn : Compiler Unit := do
  emit .pushNil
  emit .ret

/-- The offset of the next instruction. -/
def here : Compiler Nat := return (← get).draft.chunk.code.size

/-- The string with a text, on the heap. -/
def intern (text : String) : Compiler Ref := modifyGet fun s =>
  let (heap, r) := s.heap.intern text
  (r, { s with heap })

/-- The pool index of a value; 0 if the pool is full. -/
def addConstant (v : Value) : Compiler UInt8 := do
  match (← get).draft.chunk.addConstant? v with
  | some (chunk, i) =>
    modify fun s => { s with draft := { s.draft with chunk } }
    return i
  | none =>
    report (.exceeded .constants)
    return 0

def emitConstant (v : Value) : Compiler Unit := do
  emit (.constant (← addConstant v))

/-- Emits a jump whose distance is not known yet, and gives its offset. -/
def emitJump (jump : UInt16 → Instruction) : Compiler Nat := do
  let offset ← here
  emit (jump 0xFFFF)
  return offset

/-- The longest distance of a jump. -/
def jumpLimit : Nat := 0xFFFF

/-- Makes the jump at an offset lead to the next instruction. -/
def landJump (offset : Nat) : Compiler Unit := do
  let distance := (← here) - (offset + 3)
  if distance ≤ jumpLimit then
    modify fun s => { s with
      draft := { s.draft with chunk := s.draft.chunk.setDistance offset distance.toUInt16 } }
  else
    report (.exceeded .jump)

/-- Emits a jump back to an offset. -/
def emitBackJump (start : Nat) : Compiler Unit := do
  let distance := (← here) + 3 - start
  if distance ≤ jumpLimit then
    emit (.loop distance.toUInt16)
  else
    report (.exceeded .loop)

/-- Starts a function inside the current one. -/
def beginFunction (name : Ref) : Compiler Unit := modify fun s =>
  { s with draft := .new .function (some name), enclosing := s.draft :: s.enclosing }

/-- The summary of a function. -/
def Summary.of (heap : Heap) (f : Function) : Summary :=
  { name := (f.name.bind heap.string?).getD "<script>"
    bytes := f.chunk.code.size
    constants := f.chunk.constants.size
    upvalues := f.upvalueCount }

/-- Ends the current function and goes on with the enclosing one; gives the function and where it
takes its upvalues from. -/
def endFunction : Compiler (Function × Array Capture) := do
  emitReturn
  modifyGet fun s =>
    let f := s.draft.finish
    let summaries := s.summaries.push (.of s.heap f)
    let (draft, enclosing) := match s.enclosing with
      | [] => (.new .script none, [])
      | d :: ds => (d, ds)
    ((f, s.draft.captures), { s with draft, enclosing, summaries })

def allocate (o : Object) : Compiler Ref := modifyGet fun s =>
  let (heap, r) := s.heap.allocate o
  (r, { s with heap })

/-- The depth of the current scope; 0 is the top level of the script. -/
def depth : Compiler Nat := return (← get).draft.depth

def openScope : Compiler Unit :=
  modify fun s => { s with draft := { s.draft with depth := s.draft.depth + 1 } }

def closeScope : Compiler Unit := modify fun s =>
  let s := { s with draft := { s.draft with depth := s.draft.depth - 1 } }
  s.dropLocals s.draft.locals

/-- The pool index of a variable name. -/
def nameConstant (name : String) : Compiler UInt8 := do
  addConstant (.object (← intern name))

/-- Adds a local that is not initialized yet. -/
def addLocal (name : String) : Compiler Unit := do
  if (← get).draft.locals.length < slotLimit then
    modify fun s => { s with
      draft := { s.draft with locals := ⟨name, none, false⟩ :: s.draft.locals } }
  else
    report (.exceeded .locals)

/-- Declares the variable that was just named, unless it is a global. -/
def declareVariable : Compiler Unit := do
  if 0 < (← depth) then
    let s ← get
    let name := s.previous.lexeme
    if s.draft.declares name then
      report .duplicateVariable
    addLocal name

/-- Reads a variable name and declares it. Gives the pool index of a global's name, else 0. -/
def newVariable (what : Expectation) : Compiler UInt8 := do
  consume .identifier what
  declareVariable
  if 0 < (← depth) then
    return 0
  else
    nameConstant (← get).previous.lexeme

/-- A local can be read from now on. -/
def makeReadable : Compiler Unit := do
  if 0 < (← depth) then
    modify fun s => { s with draft := s.draft.makeReadable }

/-- Gives the variable that was declared last the value on top of the stack. -/
def defineVariable (global : UInt8) : Compiler Unit := do
  if 0 < (← depth) then
    makeReadable
  else
    emit (.defineGlobal global)

/-- Where a variable lives, told by the instructions that read and assign it. -/
structure Place where
  read : Instruction
  assign : Instruction
deriving DecidableEq

/-- Reports a fault, if there is one. -/
def reportFault : Option Fault → Compiler Unit
  | some fault => report fault
  | none => pure ()

/-- Looks a variable up: among the locals of the current function, then in the functions around
it, and last among the globals. -/
def resolve (name : String) : Compiler Place := do
  let s ← get
  match s.draft.findLocal? name with
  | some (slot, l) =>
    reportFault (readFault l)
    return ⟨.getLocal slot.toUInt8, .setLocal slot.toUInt8⟩
  | none =>
    match resolveUpvalue name s.draft s.enclosing with
    | some r =>
      modify fun s => { s with draft := r.draft, enclosing := r.enclosing }
      reportFault r.fault
      return ⟨.getUpvalue r.index, .setUpvalue r.index⟩
    | none =>
      let i ← nameConstant name
      return ⟨.getGlobal i, .setGlobal i⟩

end Compile
end StackScript
