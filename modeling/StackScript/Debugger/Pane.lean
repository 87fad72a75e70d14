import StackScript.Machine.Log
import StackScript.Text.Utf8

/-!
# StackScript.Debugger.Pane

The four panes of the debugger's screen: source, bytecode, stack, and output.

* `Layout.of`: where the panes of a terminal are, in the terminal's 16-bit coordinates.
* `sourceRows`, `bytecodeRows`, `stackRows`, `outputRows`: what they show.
* `Pane.draw`: rows cut or padded to the pane.
-/

namespace StackScript
namespace Debugger

structure Pane where
  x : UInt16
  y : UInt16
  width : UInt16
  height : UInt16
deriving DecidableEq

structure Layout where
  source : Pane
  bytecode : Pane
  stack : Pane
  output : Pane
deriving DecidableEq

/-- The left half shows the source, the next quarter the bytecode, and the last quarter the stack
above the output. The lowest fifth is left to the prompt. -/
def Layout.of (width height : UInt16) : Layout :=
  let quarter := width / 4
  let half := width / 2
  let threeQuarters := width * 3 / 4
  let tall := height * 4 / 5
  let middle := height / 2
  { source := ⟨0, 0, half, tall⟩
    bytecode := ⟨half, 0, quarter, tall⟩
    stack := ⟨threeQuarters, 0, quarter, middle⟩
    output := ⟨threeQuarters, middle, quarter, tall - middle⟩ }

/-- A text and the place of the terminal where it is written. -/
structure Drawing where
  x : Nat
  y : Nat
  text : String
deriving DecidableEq

/-- Fills a pane with rows from the top. The place of a row is a 16-bit number, too. -/
def Pane.draw (p : Pane) (rows : List String) : List Drawing :=
  (List.range p.height.toNat).map fun i =>
    ⟨p.x.toNat, (p.y + i.toUInt16).toNat, Text.fit p.width.toNat (rows[i]?.getD "")⟩

/-- A source line with its number, marked if it is the current one. -/
def sourceRow (current number : Nat) (text : String) : String :=
  (if number = current then ">" else " ") ++ Text.padLeft ' ' 4 (toString number) ++ " " ++ text

/-- The source lines, numbered from 1, from the one that brings the current line to the middle. -/
def sourceRows (source : String) (line : Option Nat) (height : Nat) : List String :=
  let current := line.getD 1
  let skipped := current - height / 2
  ((Text.lines source).zipIdx.drop skipped).map fun (text, i) => sourceRow current (i + 1) text

/-- The instructions from the next one on. -/
def bytecodeRows (m : Machine) (height : Nat) : List String :=
  match m.current? with
  | some (f, ip) => f.chunk.listFrom m.heap height ip
  | none => []

/-- The values on the stack with their slots, top first. -/
def stackLines (m : Machine) : List String :=
  (m.stack.toList.zipIdx.map fun (v, i) => toString i ++ ": " ++ m.heap.display v).reverse

/-- The stack grows upwards from the bottom of its pane. -/
def stackRows (m : Machine) (height : Nat) : List String :=
  "Stack:" :: List.replicate (height - (m.stack.size + 1)) "" ++ stackLines m

/-- The last lines of the output. -/
def outputRows (m : Machine) (height : Nat) : List String :=
  let printed := Text.lines (Text.Utf8.textOf m.output.octets)
  "Output:" :: printed.drop (printed.length - (height - 1))

/-- A terminal and where its cursor is. -/
structure Terminal where
  width : UInt16
  height : UInt16
  cursorX : Nat
  cursorY : Nat

def prompt : String := "> "

/-- The panes, and the prompt at the cursor. -/
def screen (t : Terminal) (source : String) (m : Machine) : List Drawing :=
  let layout := Layout.of t.width t.height
  layout.source.draw (sourceRows source m.currentLine? layout.source.height.toNat)
    ++ layout.bytecode.draw (bytecodeRows m layout.bytecode.height.toNat)
    ++ layout.stack.draw (stackRows m layout.stack.height.toNat)
    ++ layout.output.draw (outputRows m layout.output.height.toNat)
    ++ [⟨t.cursorX, t.cursorY, prompt⟩]

end Debugger
end StackScript
