import StackScript.Machine.Error

/-!
# StackScript.Machine.Output

What a script has printed, in octets. An output may have room for a limited number of octets; a
text that does not fit is written as far as it fits.
-/

namespace StackScript
namespace Machine

structure Output where
  octets : ByteArray
  /-- how many more octets fit; none if there is no limit -/
  room : Option Nat

namespace Output

def unlimited : Output := ⟨.empty, none⟩

def limited (room : Nat) : Output := ⟨.empty, some room⟩

/-- Writes a text, and tells whether all of it fitted. -/
def write (o : Output) (text : String) : Output × Bool :=
  let octets := text.toUTF8
  match o.room with
  | none => ({ o with octets := o.octets ++ octets }, true)
  | some room =>
    if octets.size ≤ room then (⟨o.octets ++ octets, some (room - octets.size)⟩, true)
    else (⟨o.octets ++ octets.extract 0 room, some 0⟩, false)

/-- Writes pieces one after the other, and tells whether all of them fitted. -/
def writeEach (o : Output) : List String → Output × Bool
  | [] => (o, true)
  | text :: rest =>
    match o.write text with
    | (o, true) => o.writeEach rest
    | (o, false) => (o, false)

end Output
end Machine
end StackScript
