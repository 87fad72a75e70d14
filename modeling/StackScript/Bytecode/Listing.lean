import StackScript.Store.Heap
import StackScript.Text.Lines

/-!
# StackScript.Bytecode.Listing

Bytecode in readable form.

* `Chunk.listInstruction`: one instruction, and the offset after it. A line number is shown where
  it changes. An octet that starts no instruction is listed by itself.
* `Chunk.listing`: all instructions of a chunk under a headline.
* `Heap.listFunction`: a function and the functions among its constants, each under a headline.
-/

namespace StackScript

def columnName (name : String) : String := Text.padRight 16 name ++ " "

def columnNumber (n : Nat) : String := Text.padLeft ' ' 4 (toString n)

namespace Chunk

/-- The line column: blank where the line is that of the octet before. -/
def lineColumn (c : Chunk) (offset : Nat) : String :=
  match c.line? offset with
  | none => "   ? "
  | some line =>
    if offset ≠ 0 ∧ c.line? (offset - 1) = some line then "   | " else columnNumber line ++ " "

def constantText (c : Chunk) (h : Heap) (i : UInt8) : String :=
  match c.constants[i.toNat]? with
  | some v => h.display v
  | none => "<missing constant>"

/-- An instruction at an offset, the next one being at `next`. -/
def instructionText (c : Chunk) (h : Heap) (offset next : Nat) (i : Instruction) : String :=
  match i with
  | .constant k | .getGlobal k | .defineGlobal k | .setGlobal k | .closure k =>
    columnName i.name ++ columnNumber k.toNat ++ " '" ++ c.constantText h k ++ "'"
  | .getLocal n | .setLocal n | .getUpvalue n | .setUpvalue n | .call n | .array n =>
    columnName i.name ++ columnNumber n.toNat
  | .jump d | .jumpIfFalse d =>
    columnName i.name ++ columnNumber offset ++ " -> " ++ toString (next + d.toNat)
  | .loop d => columnName i.name ++ columnNumber offset ++ " -> " ++ toString (next - d.toNat)
  | .capture s =>
    columnName i.name ++ (if s.isLocal then "local " else "upvalue ") ++ toString s.index.toNat
  | _ => i.name

def badOctet (c : Chunk) (offset : Nat) : String :=
  match c.code[offset]? with
  | some octet => "<bad byte Some(" ++ toString octet.toNat ++ ")>"
  | none => "<bad byte None>"

/-- The line for the instruction at an offset, and the offset of the next one. -/
def listInstruction (c : Chunk) (h : Heap) (offset : Nat) : String × Nat :=
  let columns := Text.padLeft '0' 4 (toString offset) ++ " " ++ c.lineColumn offset
  match c.read? offset with
  | none => (columns ++ c.badOctet offset, offset + 1)
  | some i =>
    let next := offset + i.size
    (columns ++ c.instructionText h offset next i, next)

/-- At most `count` lines, from an offset on. -/
def listFrom (c : Chunk) (h : Heap) : Nat → Nat → List String
  | 0, _ => []
  | count + 1, offset =>
    if offset < c.code.size then
      let (line, next) := c.listInstruction h offset
      line :: listFrom c h count next
    else []

/-- All lines under a headline; there are at most as many as octets. -/
def listing (c : Chunk) (name : String) (h : Heap) : String :=
  "== " ++ name ++ " ==\n" ++ String.join ((c.listFrom h c.code.size 0).map (· ++ "\n"))

end Chunk

namespace Heap

/-- The functions among the constants of a chunk, in pool order. -/
def nestedFunctions (h : Heap) (c : Chunk) : List Ref :=
  c.constants.toList.filterMap fun v => v.ref?.filter fun r => (h.function? r).isSome

/-- The listing of a function and, up to `levels` levels deep, of the functions in its pool. -/
def listUpTo (h : Heap) : Nat → Ref → String
  | 0, _ => ""
  | levels + 1, r =>
    match h.function? r with
    | none => ""
    | some f =>
      f.chunk.listing (h.display (.object r)) h
        ++ String.join ((h.nestedFunctions f.chunk).map fun n => "\n" ++ listUpTo h levels n)

/-- The listing of a function and of all functions in it. A function is allocated after those in
its pool, so they nest at most as deep as there are objects. -/
def listFunction (h : Heap) (r : Ref) : String := h.listUpTo h.size r

end Heap
end StackScript
