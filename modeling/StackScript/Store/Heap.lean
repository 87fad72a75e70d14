import StackScript.Store.Object
import StackScript.Store.Table

/-!
# StackScript.Store.Heap

All objects in the order of their allocation. Nothing is removed, except everything at once
(`clear`). Every string is allocated once (`intern`): the table `strings` has its handle under
the hash of its text.
-/

namespace StackScript

structure Heap where
  objects : Array Object
  strings : Table Unit

namespace Heap

def empty : Heap := ⟨#[], .empty⟩

instance : Inhabited Heap := ⟨empty⟩

/-- The number of objects. -/
def size (h : Heap) : Nat := h.objects.size

/-- The number of strings in the table. -/
def interned (h : Heap) : Nat := h.strings.size

def get? (h : Heap) (r : Ref) : Option Object := h.objects[r.index]?

/-- Puts an object on the heap. -/
def allocate (h : Heap) (o : Object) : Heap × Ref :=
  let r := Ref.ofIndex h.objects.size
  ({ h with objects := h.objects.push o }, r)

/-- Replaces an object. -/
def set (h : Heap) (r : Ref) (o : Object) : Heap :=
  { h with objects := h.objects.setIfInBounds r.index o }

/-- Replaces the element of an array. -/
def setElement (h : Heap) (r : Ref) (i : Nat) (v : Value) : Heap :=
  { h with objects := h.objects.modify r.index fun
      | .array elements => .array (elements.setIfInBounds i v)
      | o => o }

def string? (h : Heap) (r : Ref) : Option String :=
  match h.get? r with
  | some (.string text) => some text
  | _ => none

def function? (h : Heap) (r : Ref) : Option Function :=
  match h.get? r with
  | some (.function f) => some f
  | _ => none

def closure? (h : Heap) (r : Ref) : Option Closure :=
  match h.get? r with
  | some (.closure c) => some c
  | _ => none

def upvalue? (h : Heap) (r : Ref) : Option Upvalue :=
  match h.get? r with
  | some (.upvalue u) => some u
  | _ => none

def native? (h : Heap) (r : Ref) : Option Native :=
  match h.get? r with
  | some (.native n) => some n
  | _ => none

def array? (h : Heap) (r : Ref) : Option (Array Value) :=
  match h.get? r with
  | some (.array elements) => some elements
  | _ => none

/-- The text of a value that is a string. -/
def text? (h : Heap) : Value → Option String
  | .object r => h.string? r
  | _ => none

/-- The elements of a value that is an array. -/
def elements? (h : Heap) : Value → Option (Array Value)
  | .object r => h.array? r
  | _ => none

/-- The string with a given text, if there is one. -/
def findString? (h : Heap) (text : String) : Option Ref :=
  h.strings.findKey? (Text.hash text) fun r => h.string? r == some text

/-- The string with a given text, allocated if need be. -/
def intern (h : Heap) (text : String) : Heap × Ref :=
  match h.findString? text with
  | some r => (h, r)
  | none =>
    let (h, r) := h.allocate (.string text)
    ({ h with strings := (h.strings.insert r (Text.hash text) ()).1 }, r)

/-- Releases every object. -/
def clear (h : Heap) : Heap := if h.objects.isEmpty then h else empty

/-- The type of a value, told by the object for a handle. -/
def typeName (h : Heap) (v : Value) : String :=
  match v.ref?.bind h.get? with
  | some o => o.kind
  | none => v.typeName

/-- How deep arrays are shown inside arrays; deeper ones are elided. -/
def displayLevels : Nat := 8

def displayFunction (h : Heap) (f : Function) : String :=
  match f.name.bind h.string? with
  | some name => "<fn " ++ name ++ ">"
  | none => "<script>"

/-- A value as `print` shows it, with at most `levels` levels of arrays. -/
def displayUpTo (h : Heap) : Nat → Value → String
  | _, .nil => "nil"
  | _, .bool b => if b then "true" else "false"
  | _, .number x => Numeral.text x
  | levels, .object r =>
    match h.get? r with
    | none => "<dangling " ++ r.label ++ ">"
    | some (.string text) => text
    | some (.function f) => h.displayFunction f
    | some (.closure c) =>
      match h.function? c.function with
      | some f => h.displayFunction f
      | none => "<closure>"
    | some (.upvalue _) => "upvalue"
    | some (.native _) => "<native fn>"
    | some (.array elements) =>
      match levels with
      | 0 => "[...]"
      | levels + 1 => "[" ++ ", ".intercalate (elements.toList.map (displayUpTo h levels)) ++ "]"

/-- A value as `print` shows it. -/
def display (h : Heap) (v : Value) : String := h.displayUpTo displayLevels v

def functionPieces (h : Heap) (f : Function) : List String :=
  match f.name.bind h.string? with
  | some name => ["<fn ", name, ">"]
  | none => ["<script>"]

/-- What `print` writes of a value, one piece after the other, with at most `levels` levels of
arrays. -/
def piecesUpTo (h : Heap) : Nat → Value → List String
  | _, .nil => ["nil"]
  | _, .bool b => [if b then "true" else "false"]
  | _, .number x => [Numeral.text x]
  | levels, .object r =>
    match h.get? r with
    | none => ["<dangling ", r.label, ">"]
    | some (.string text) => [text]
    | some (.function f) => h.functionPieces f
    | some (.closure c) =>
      match h.function? c.function with
      | some f => h.functionPieces f
      | none => ["<closure>"]
    | some (.upvalue _) => ["upvalue"]
    | some (.native _) => ["<native fn>"]
    | some (.array elements) =>
      match levels with
      | 0 => ["[...]"]
      | levels + 1 => "[" :: [", "].intercalate (elements.toList.map (piecesUpTo h levels)) ++ ["]"]

/-- What `print` writes of a value, one piece after the other. -/
def pieces (h : Heap) (v : Value) : List String := h.piecesUpTo displayLevels v

end Heap
end StackScript
