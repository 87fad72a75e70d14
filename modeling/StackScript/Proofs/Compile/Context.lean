import StackScript.Compile.State

/-!
# StackScript.Proofs.Compile.Context

What the compiler knows at a place of the source that is free of faults, apart from the tokens and
from the octets emitted so far: the functions around the place, each with its locals, captures and
pool, and the heap.

* `Context.resolve?`, `Context.newVariable?`: looking up and declaring variables; `none` where the
  compiler reports a fault.
* `Context.scopeCode`: the instructions at the end of a scope.
* `State.context`: the context of a state of the compiler.
-/

namespace StackScript
namespace Compile

/-- A draft without octets. -/
def Draft.bare (d : Draft) : Draft :=
  { d with chunk := { d.chunk with code := #[], lines := #[] } }

structure Context where
  draft : Draft
  /-- innermost first -/
  enclosing : List Draft
  heap : Heap

def State.context (s : State) : Context := ⟨s.draft.bare, s.enclosing.map Draft.bare, s.heap⟩

namespace Context

/-- The pool index of a value. -/
def addConstant? (c : Context) (v : Value) : Option (Context × UInt8) :=
  (c.draft.chunk.addConstant? v).map fun (chunk, k) =>
    ({ c with draft := { c.draft with chunk } }, k)

def intern (c : Context) (text : String) : Context × Ref :=
  let (heap, r) := c.heap.intern text
  ({ c with heap }, r)

def textConstant? (c : Context) (text : String) : Option (Context × UInt8) :=
  let (c, r) := c.intern text
  c.addConstant? (.object r)

/-- Where a variable lives. -/
def resolve? (c : Context) (name : String) : Option (Context × Place) :=
  match c.draft.findLocal? name with
  | some (slot, l) =>
    if l.depth.isSome then some (c, ⟨.getLocal slot.toUInt8, .setLocal slot.toUInt8⟩) else none
  | none =>
    match resolveUpvalue name c.draft c.enclosing with
    | some r =>
      if r.fault.isNone then
        some ({ c with draft := r.draft, enclosing := r.enclosing },
          ⟨.getUpvalue r.index, .setUpvalue r.index⟩)
      else none
    | none => (c.textConstant? name).map fun (c, k) => (c, ⟨.getGlobal k, .setGlobal k⟩)

/-- The context with one more local, which is not initialized. -/
def addLocal? (c : Context) (name : String) : Option Context :=
  if c.draft.declares name = false ∧ c.draft.locals.length < slotLimit then
    some { c with draft := { c.draft with locals := ⟨name, none, false⟩ :: c.draft.locals } }
  else none

/-- A variable declared: the pool index of its name if it is global, else 0. -/
def newVariable? (c : Context) (name : String) : Option (Context × UInt8) :=
  if 0 < c.draft.depth then (c.addLocal? name).map fun c => (c, 0) else c.textConstant? name

theorem newVariable?_of_scope {c : Context} {name : String} (hd : 0 < c.draft.depth) :
    c.newVariable? name = (c.addLocal? name).map fun c => (c, 0) :=
  if_pos hd

theorem depth_addLocal? {c c' : Context} {name : String} (h : c.addLocal? name = some c') :
    c'.draft.depth = c.draft.depth := by
  unfold addLocal? at h
  split at h
  next => exact (congrArg (·.draft.depth) (Option.some.inj h)).symm
  next => cases h

def makeReadable (c : Context) : Context :=
  if 0 < c.draft.depth then { c with draft := c.draft.makeReadable } else c

theorem depth_makeReadable (c : Context) : c.makeReadable.draft.depth = c.draft.depth := by
  unfold makeReadable Draft.makeReadable
  split
  next => split <;> rfl
  next => rfl

theorem heap_makeReadable (c : Context) : c.makeReadable.heap = c.heap := by
  unfold makeReadable
  split <;> rfl

/-- What gives a declared variable its value, which is on top of the stack. -/
def definition (c : Context) (global : UInt8) : List Instruction :=
  if 0 < c.draft.depth then [] else [.defineGlobal global]

def openScope (c : Context) : Context :=
  { c with draft := { c.draft with depth := c.draft.depth + 1 } }

/-- The context behind the innermost scope. -/
def closeScope (c : Context) : Context :=
  { c with draft := { c.draft with
      depth := c.draft.depth - 1
      locals := c.draft.locals.dropWhile (Draft.declaredWithin (c.draft.depth - 1 + 1)) } }

/-- What removes the locals of the innermost scope from the stack. -/
def scopeCode (c : Context) : List Instruction :=
  (c.draft.locals.takeWhile (Draft.declaredWithin (c.draft.depth - 1 + 1))).map fun l =>
    if l.captured then .closeUpvalue else .pop

/-- The context at the parameters of a function. -/
def enterFunction (c : Context) (name : String) : Context :=
  let (c, r) := c.intern name
  { c with draft := { Draft.new .function (some r) with depth := 1 }
           enclosing := c.draft :: c.enclosing }

def addParameter? (c : Context) (name : String) : Option Context :=
  let c := { c with draft := { c.draft with arity := c.draft.arity + 1 } }
  if c.draft.arity ≤ countLimit then (c.addLocal? name).map makeReadable else none

def addParameters? (c : Context) : List String → Option Context
  | [] => some c
  | x :: xs => (c.addParameter? x).bind fun c => c.addParameters? xs

/-- The function whose body ends here, given its octets and their lines. -/
def finish (c : Context) (code : List UInt8) (lines : Array Nat) : Function :=
  ⟨c.draft.name, c.draft.arity, c.draft.captures.size,
    ⟨code.toArray, lines, c.draft.chunk.constants⟩⟩

/-- The context behind a function, which is on the heap, and the pool index of the function. -/
def leaveFunction? (c : Context) (f : Function) : Option (Context × UInt8) :=
  match c.enclosing with
  | [] => none
  | d :: ds =>
    let (heap, r) := c.heap.allocate (.function f)
    { draft := d, enclosing := ds, heap : Context }.addConstant? (.object r)

/-- What makes a closure of the function that ends here. -/
def closureCode (c : Context) (constant : UInt8) : List Instruction :=
  .closure constant :: c.draft.captures.toList.map .capture

end Context
end Compile
end StackScript
