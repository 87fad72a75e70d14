/-!
# StackScript.Bytecode.Instruction

The instructions of the stack machine and their octets: one octet that tells the instruction,
then its operand. A word operand has its high octet first; a capture is two octets, zero for an
upvalue of the enclosing function and anything else for one of its locals, then the index.

* `encode`: the octets of an instruction, with 1 for a local capture.
* `decode?`: the instruction that a list of octets starts with.
* `sizeOf?`: how many octets an instruction takes, told by its first one.
-/

namespace StackScript

/-- Where a new closure finds one of its upvalues: in a slot of the enclosing frame, or among the
upvalues of the enclosing closure. -/
structure Capture where
  isLocal : Bool
  index : UInt8
deriving DecidableEq

inductive Operand where
  | none
  | byte (n : UInt8)
  | word (n : UInt16)
  | capture (c : Capture)
deriving DecidableEq

namespace Operand

def octets : Operand → List UInt8
  | .none => []
  | .byte n => [n]
  | .word n => [(n >>> 8).toUInt8, n.toUInt8]
  | .capture c => [if c.isLocal then 1 else 0, c.index]

def byte? : List UInt8 → Option UInt8
  | n :: _ => some n
  | [] => Option.none

def word? : List UInt8 → Option UInt16
  | high :: low :: _ => some (high.toUInt16 <<< 8 ||| low.toUInt16)
  | _ => Option.none

def capture? : List UInt8 → Option Capture
  | source :: index :: _ => some ⟨source != 0, index⟩
  | _ => Option.none

end Operand

inductive Instruction where
  /-- Pushes the constant with this index. -/
  | constant (operand : UInt8)
  | pushNil
  | pushTrue
  | pushFalse
  | pop
  /-- Pushes the slot, counted from the frame's base. -/
  | getLocal (operand : UInt8)
  | setLocal (operand : UInt8)
  /-- The operand is the constant that names the variable. -/
  | getGlobal (operand : UInt8)
  | defineGlobal (operand : UInt8)
  | setGlobal (operand : UInt8)
  | getUpvalue (operand : UInt8)
  | setUpvalue (operand : UInt8)
  /-- Pops an array and an index, pushes the element. -/
  | getIndex
  /-- Pops an array, an index and a value, and pushes the value again. -/
  | setIndex
  | equal
  | greater
  | less
  | add
  | subtract
  | multiply
  | divide
  /-- Boolean negation. -/
  | negation
  | negate
  | print
  /-- The operand counts from the end of the instruction. -/
  | jump (distance : UInt16)
  /-- Leaves the condition on the stack. -/
  | jumpIfFalse (distance : UInt16)
  /-- Jumps back, counting from the end of the instruction. -/
  | loop (distance : UInt16)
  /-- The operand is the number of arguments. -/
  | call (operand : UInt8)
  /-- Followed by one `capture` for each upvalue of the function. -/
  | closure (operand : UInt8)
  /-- Data of the `closure` before it, not to be executed. -/
  | capture (source : Capture)
  | closeUpvalue
  /-- Makes an array of this many values. -/
  | array (operand : UInt8)
  | ret
deriving DecidableEq

namespace Instruction

/-- The octet that tells an instruction. -/
def id : Instruction → UInt8
  | .constant _ => 0
  | .pushNil => 1
  | .pushTrue => 2
  | .pushFalse => 3
  | .pop => 4
  | .getLocal _ => 5
  | .setLocal _ => 6
  | .getGlobal _ => 7
  | .defineGlobal _ => 8
  | .setGlobal _ => 9
  | .getUpvalue _ => 10
  | .setUpvalue _ => 11
  | .getIndex => 12
  | .setIndex => 13
  | .equal => 14
  | .greater => 15
  | .less => 16
  | .add => 17
  | .subtract => 18
  | .multiply => 19
  | .divide => 20
  | .negation => 21
  | .negate => 22
  | .print => 23
  | .jump _ => 24
  | .jumpIfFalse _ => 25
  | .loop _ => 26
  | .call _ => 27
  | .closure _ => 28
  | .capture _ => 29
  | .closeUpvalue => 30
  | .array _ => 31
  | .ret => 32

/-- The name in listings. -/
def name : Instruction → String
  | .constant _ => "CONSTANT"
  | .pushNil => "NIL"
  | .pushTrue => "TRUE"
  | .pushFalse => "FALSE"
  | .pop => "POP"
  | .getLocal _ => "GET_LOCAL"
  | .setLocal _ => "SET_LOCAL"
  | .getGlobal _ => "GET_GLOBAL"
  | .defineGlobal _ => "DEFINE_GLOBAL"
  | .setGlobal _ => "SET_GLOBAL"
  | .getUpvalue _ => "GET_UPVALUE"
  | .setUpvalue _ => "SET_UPVALUE"
  | .getIndex => "GET_INDEX"
  | .setIndex => "SET_INDEX"
  | .equal => "EQUAL"
  | .greater => "GREATER"
  | .less => "LESS"
  | .add => "ADD"
  | .subtract => "SUBTRACT"
  | .multiply => "MULTIPLY"
  | .divide => "DIVIDE"
  | .negation => "NOT"
  | .negate => "NEGATE"
  | .print => "PRINT"
  | .jump _ => "JUMP"
  | .jumpIfFalse _ => "JUMP_IF_FALSE"
  | .loop _ => "LOOP"
  | .call _ => "CALL"
  | .closure _ => "CLOSURE"
  | .capture _ => "CAPTURE"
  | .closeUpvalue => "CLOSE_UPVALUE"
  | .array _ => "ARRAY"
  | .ret => "RETURN"

def operand : Instruction → Operand
  | .constant n | .getLocal n | .setLocal n | .getGlobal n | .defineGlobal n | .setGlobal n
  | .getUpvalue n | .setUpvalue n | .call n | .closure n | .array n => .byte n
  | .jump n | .jumpIfFalse n | .loop n => .word n
  | .capture n => .capture n
  | _ => .none

def encode (i : Instruction) : List UInt8 := i.id :: i.operand.octets

/-- The number of octets of an instruction. -/
def size (i : Instruction) : Nat := 1 + i.operand.octets.length

/-- The instruction at the front of a list of octets; none if its first octet tells no
instruction or its operand is cut. -/
def decode? : List UInt8 → Option Instruction
  | [] => none
  | id :: rest =>
    match id.toNat with
    | 0 => (Operand.byte? rest).map .constant
    | 1 => some .pushNil
    | 2 => some .pushTrue
    | 3 => some .pushFalse
    | 4 => some .pop
    | 5 => (Operand.byte? rest).map .getLocal
    | 6 => (Operand.byte? rest).map .setLocal
    | 7 => (Operand.byte? rest).map .getGlobal
    | 8 => (Operand.byte? rest).map .defineGlobal
    | 9 => (Operand.byte? rest).map .setGlobal
    | 10 => (Operand.byte? rest).map .getUpvalue
    | 11 => (Operand.byte? rest).map .setUpvalue
    | 12 => some .getIndex
    | 13 => some .setIndex
    | 14 => some .equal
    | 15 => some .greater
    | 16 => some .less
    | 17 => some .add
    | 18 => some .subtract
    | 19 => some .multiply
    | 20 => some .divide
    | 21 => some .negation
    | 22 => some .negate
    | 23 => some .print
    | 24 => (Operand.word? rest).map .jump
    | 25 => (Operand.word? rest).map .jumpIfFalse
    | 26 => (Operand.word? rest).map .loop
    | 27 => (Operand.byte? rest).map .call
    | 28 => (Operand.byte? rest).map .closure
    | 29 => (Operand.capture? rest).map .capture
    | 30 => some .closeUpvalue
    | 31 => (Operand.byte? rest).map .array
    | 32 => some .ret
    | _ => none

/-- The size of the instructions whose first octet is `id`. -/
def sizeOf? (id : UInt8) : Option Nat :=
  match id.toNat with
  | 1 | 2 | 3 | 4 | 12 | 13 | 14 | 15 | 16 | 17 | 18 | 19 | 20 | 21 | 22 | 23 | 30 | 32 => some 1
  | 0 | 5 | 6 | 7 | 8 | 9 | 10 | 11 | 27 | 28 | 31 => some 2
  | 24 | 25 | 26 => some 3
  | 29 => some 3
  | _ => none

end Instruction
end StackScript
