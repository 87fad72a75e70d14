import StackScript.Compile.Error
import StackScript.Store.Object

/-!
# StackScript.Compile.Draft

A function while it is being compiled: its code so far, its local variables in scope and the
upvalues it captures.

* `Local`: a local variable. Its slot is the number of locals declared before it; slot 0 belongs
  to the function itself.
* `Draft.findLocal?`: the innermost local with a name.
* `resolveUpvalue`: a variable of an enclosing function. Every function in between captures it
  too, so that it is handed down from closure to closure.
-/

namespace StackScript
namespace Compile

structure Local where
  name : String
  /-- the depth of its scope; none while its initializer is being compiled -/
  depth : Option Nat
  captured : Bool
deriving DecidableEq

inductive BodyKind where
  | script
  | function
deriving DecidableEq

structure Draft where
  kind : BodyKind
  name : Option Ref
  arity : Nat
  chunk : Chunk
  /-- innermost first -/
  locals : List Local
  captures : Array Capture
  depth : Nat

/-- How many locals and how many upvalues an operand of one octet can tell apart. -/
def slotLimit : Nat := 256

/-- How many parameters, arguments and array elements an operand of one octet can count. -/
def countLimit : Nat := 255

namespace Draft

/-- Slot 0 holds the function itself and has no name a program can write. -/
def new (kind : BodyKind) (name : Option Ref) : Draft :=
  { kind, name, arity := 0, chunk := .empty, locals := [⟨"", some 0, false⟩], captures := #[],
    depth := 0 }

instance : Inhabited Draft := ⟨new .script none⟩

/-- The function that has been compiled. -/
def finish (d : Draft) : Function := ⟨d.name, d.arity, d.captures.size, d.chunk⟩

/-- The innermost local with a name, and its slot. -/
def findIn (name : String) : List Local → Option (Nat × Local)
  | [] => none
  | l :: outer => if l.name = name then some (outer.length, l) else findIn name outer

def findLocal? (d : Draft) (name : String) : Option (Nat × Local) := findIn name d.locals

/-- Marks the innermost local with a name as captured. -/
def captureIn (name : String) : List Local → List Local
  | [] => []
  | l :: outer =>
    if l.name = name then { l with captured := true } :: outer else l :: captureIn name outer

def captureLocal (d : Draft) (name : String) : Draft :=
  { d with locals := captureIn name d.locals }

/-- Whether a local is declared in a scope at least as deep as `depth`. -/
def declaredWithin (depth : Nat) (l : Local) : Bool :=
  match l.depth with
  | none => true
  | some own => depth ≤ own

/-- Whether the innermost scope already has a local with a name. -/
def declares (d : Draft) (name : String) : Bool :=
  (d.locals.takeWhile (declaredWithin d.depth)).any (·.name == name)

/-- Marks the innermost local as initialized, at the current depth. -/
def makeReadable (d : Draft) : Draft :=
  match d.locals with
  | [] => d
  | l :: outer => { d with locals := { l with depth := some d.depth } :: outer }

/-- The index of a capture among the upvalues, added if it is new. -/
def addCapture (d : Draft) (c : Capture) : Draft × UInt8 × Option Fault :=
  match d.captures.findIdx? (· == c) with
  | some i => (d, i.toUInt8, none)
  | none =>
    if d.captures.size < slotLimit then
      ({ d with captures := d.captures.push c }, d.captures.size.toUInt8, none)
    else (d, 0, some (.exceeded .upvalues))

end Draft

/-- The fault of reading a local whose initializer is not finished. -/
def readFault (l : Local) : Option Fault := if l.depth.isNone then some .ownInitializer else none

/-- A variable found in an enclosing function: its index among the upvalues of `draft`, and the
functions with their new captures. Of several faults the first counts. -/
structure Resolution where
  index : UInt8
  draft : Draft
  enclosing : List Draft
  fault : Option Fault

/-- Looks for a variable in the functions around a draft, innermost first. -/
def resolveUpvalue (name : String) (d : Draft) : List Draft → Option Resolution
  | [] => none
  | outer :: rest =>
    match outer.findLocal? name with
    | some (slot, l) =>
      let (d, index, full) := d.addCapture ⟨true, slot.toUInt8⟩
      some ⟨index, d, outer.captureLocal name :: rest, (readFault l).or full⟩
    | none =>
      match resolveUpvalue name outer rest with
      | none => none
      | some r =>
        let (d, index, full) := d.addCapture ⟨false, r.index⟩
        some ⟨index, d, r.draft :: r.enclosing, r.fault.or full⟩

end Compile
end StackScript
