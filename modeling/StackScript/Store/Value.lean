import StackScript.Numeral.Decimal

/-!
# StackScript.Store.Value

What a variable holds. `nil`, booleans and numbers are stored in the value itself; everything
else lives on the heap and the value holds its handle (`Ref`).

Two values are equal (`==`) if they are the same `nil` or boolean, the same object, or numbers
that compare equal: NaN differs from itself and the two zeros are equal. Strings are shared by
content, so comparing handles compares strings.
-/

namespace StackScript

/-- The handle of a heap object: its position in the order of allocation. -/
structure Ref where
  id : UInt32
deriving DecidableEq, Hashable

namespace Ref

def index (r : Ref) : Nat := r.id.toNat

/-- The handle of the object at a position. -/
def ofIndex (i : Nat) : Ref := ⟨i.toUInt32⟩

/-- A handle as messages show it. -/
def label (r : Ref) : String := "#" ++ toString r.index

end Ref

inductive Value where
  | nil
  | bool (b : Bool)
  | number (x : Float)
  | object (r : Ref)
deriving DecidableEq

namespace Value

instance : Inhabited Value := ⟨.nil⟩

/-- Equality as the language sees it. -/
def equals : Value → Value → Bool
  | .nil, .nil => true
  | .bool a, .bool b => a == b
  | .number a, .number b => a == b
  | .object a, .object b => a == b
  | _, _ => false

instance : BEq Value := ⟨equals⟩

/-- `nil` and `false` count as false, everything else as true. -/
def isFalsey : Value → Bool
  | .nil => true
  | .bool b => !b
  | _ => false

def number? : Value → Option Float
  | .number x => some x
  | _ => none

def ref? : Value → Option Ref
  | .object r => some r
  | _ => none

/-- The type of a value that is not looked up on a heap. -/
def typeName : Value → String
  | .nil => "nil"
  | .bool _ => "bool"
  | .number _ => "number"
  | .object _ => "object"

end Value
end StackScript
