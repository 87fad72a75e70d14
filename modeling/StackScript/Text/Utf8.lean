/-!
# StackScript.Text.Utf8

UTF-8 octets read as text, keeping what can be kept: every maximal run of octets that starts a
character and cannot be completed becomes one replacement character, and so does every octet that
starts none (`decodeLossy`).

* `continuations`: for a first octet, the ranges its continuation octets must fall into.
* `matching`: how many of the following octets fall into their ranges.
-/

namespace StackScript
namespace Text
namespace Utf8

/-- The character that stands for octets that are not text. -/
def replacement : Char := '\uFFFD'

/-- The bounds of an ordinary continuation octet. -/
def tail : UInt8 × UInt8 := (0x80, 0xBF)

/-- The bounds of the continuation octets after a first octet; none if it starts no character.
The narrower bounds exclude overlong forms, surrogates and code points above the last one. -/
def continuations (lead : UInt8) : Option (List (UInt8 × UInt8)) :=
  if lead ≤ 0x7F then some []
  else if lead < 0xC2 then none
  else if lead ≤ 0xDF then some [tail]
  else if lead = 0xE0 then some [(0xA0, 0xBF), tail]
  else if lead = 0xED then some [(0x80, 0x9F), tail]
  else if lead ≤ 0xEF then some [tail, tail]
  else if lead = 0xF0 then some [(0x90, 0xBF), tail, tail]
  else if lead ≤ 0xF3 then some [tail, tail, tail]
  else if lead = 0xF4 then some [(0x80, 0x8F), tail, tail]
  else none

/-- How many octets in front fall into the ranges, one range for each. -/
def matching : List (UInt8 × UInt8) → List UInt8 → Nat
  | (low, high) :: ranges, octet :: octets =>
    if low ≤ octet && octet ≤ high then matching ranges octets + 1 else 0
  | _, _ => 0

/-- The bits a first octet contributes when `count` octets follow it. -/
def leadBits (lead : UInt8) (count : Nat) : Nat :=
  if count = 0 then lead.toNat else lead.toNat % Nat.pow 2 (6 - count)

/-- The character of a complete sequence. -/
def assemble (lead : UInt8) (octets : List UInt8) : Char :=
  Char.ofNat (octets.foldl (fun n octet => n * 64 + octet.toNat % 64)
    (leadBits lead octets.length))

def decodeLossy : List UInt8 → List Char
  | [] => []
  | lead :: rest =>
    match continuations lead with
    | none => replacement :: decodeLossy rest
    | some ranges =>
      let count := matching ranges rest
      let c := if count = ranges.length then assemble lead (rest.take count) else replacement
      c :: decodeLossy (rest.drop count)
termination_by octets => octets.length
decreasing_by
  all_goals simp only [List.length_drop, List.length_cons]; omega

/-- The text of octets, with replacement characters for what is no text. -/
def textOf (octets : ByteArray) : String :=
  match String.fromUTF8? octets with
  | some text => text
  | none => String.ofList (decodeLossy octets.toList)

end Utf8
end Text
end StackScript
