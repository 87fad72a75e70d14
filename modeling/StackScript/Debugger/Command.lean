import StackScript.Text.Lines

/-!
# StackScript.Debugger.Command

What can be typed at the debugger's prompt.

* `Command.parse`: the command on a line; none on a blank line.
* `slotNumber`: a slot number of 64 bits, in decimal digits, with a plus sign or without.
-/

namespace StackScript
namespace Debugger

inductive Command where
  /-- executes one instruction -/
  | next
  /-- shows the stack -/
  | stack
  /-- shows one slot of the stack -/
  | slot (i : Nat)
  /-- shows the global variables -/
  | globals
  | quit
deriving DecidableEq

inductive CommandFault where
  | unknown
  | notADigit
  | tooLarge
deriving DecidableEq

namespace CommandFault

def message : CommandFault → String
  | .unknown => "Invalid Command"
  | .notADigit => "invalid digit found in string"
  | .tooLarge => "number too large to fit in target type"

end CommandFault

/-- Slot numbers are 64-bit words: all that can be typed lie below this one. -/
def slotNumberLimit : Nat := 0x10000000000000000

/-- The number that goes on with more digits behind `n`. The first fault from the left counts. -/
def digitsFrom (n : Nat) : List Char → Except CommandFault Nat
  | [] => .ok n
  | c :: cs =>
    if '0' ≤ c ∧ c ≤ '9' then
      let n := 10 * n + (c.toNat - '0'.toNat)
      if n < slotNumberLimit then digitsFrom n cs else .error .tooLarge
    else .error .notADigit

def slotNumber (word : String) : Except CommandFault Nat :=
  match word.toList with
  | '+' :: c :: cs => digitsFrom 0 (c :: cs)
  | cs => digitsFrom 0 cs

namespace Command

def parse (line : String) : Except CommandFault (Option Command) :=
  match Text.words line with
  | [] => .ok none
  | ["n"] | ["next"] => .ok (some .next)
  | ["s"] | ["stack"] => .ok (some .stack)
  | ["s", i] | ["stack", i] => (slotNumber i).map fun i => some (.slot i)
  | ["g"] | ["globals"] => .ok (some .globals)
  | ["q"] | ["quit"] => .ok (some .quit)
  | _ => .error .unknown

end Command
end Debugger
end StackScript
