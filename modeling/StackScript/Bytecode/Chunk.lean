import StackScript.Bytecode.Instruction
import StackScript.Store.Value

/-!
# StackScript.Bytecode.Chunk

The compiled body of one function: its octets, the source line of each octet, and the pool of
constants that instructions refer to by an index of one octet.

* `emit`: appends an instruction.
* `addConstant?`: the index of a value in the pool, put there if no equal one is in it.
* `read?`: the instruction at an offset.
-/

namespace StackScript

structure Chunk where
  code : Array UInt8
  lines : Array Nat
  constants : Array Value
deriving DecidableEq

namespace Chunk

def empty : Chunk := ⟨#[], #[], #[]⟩

instance : Inhabited Chunk := ⟨empty⟩

/-- How many values an index of one octet can tell apart. -/
def poolLimit : Nat := 256

/-- The lines cut or filled up to `size` entries. -/
def fillLines (lines : Array Nat) (size line : Nat) : Array Nat :=
  if size < lines.size then lines.shrink size
  else lines ++ Array.replicate (size - lines.size) line

def emit (c : Chunk) (i : Instruction) (line : Nat) : Chunk :=
  let code := c.code ++ i.encode
  { c with code, lines := fillLines c.lines code.size line }

/-- Adds a value to the pool unless an equal one is there; `none` if the pool is full. -/
def addConstant? (c : Chunk) (v : Value) : Option (Chunk × UInt8) :=
  match c.constants.findIdx? (· == v) with
  | some i => if i < poolLimit then some (c, i.toUInt8) else none
  | none =>
    if c.constants.size < poolLimit then
      some ({ c with constants := c.constants.push v }, c.constants.size.toUInt8)
    else none

/-- Overwrites the operand of the jump at an offset. -/
def setDistance (c : Chunk) (offset : Nat) (distance : UInt16) : Chunk :=
  let code := c.code.setIfInBounds (offset + 1) (distance >>> 8).toUInt8
  { c with code := code.setIfInBounds (offset + 2) distance.toUInt8 }

/-- The instruction at an offset; no instruction is longer than three octets. -/
def read? (c : Chunk) (offset : Nat) : Option Instruction :=
  Instruction.decode? (c.code.extract offset (offset + 3)).toList

def line? (c : Chunk) (offset : Nat) : Option Nat := c.lines[offset]?

end Chunk
end StackScript
