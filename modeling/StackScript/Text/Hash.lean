/-!
# StackScript.Text.Hash

The hash of a text: FNV-1a over its UTF-8 octets, in 32 bits.
-/

namespace StackScript
namespace Text

def hashOctets (octets : List UInt8) : UInt32 :=
  octets.foldl (fun h octet => (h ^^^ octet.toUInt32) * 16777619) 2166136261

def hash (text : String) : UInt32 := hashOctets text.toUTF8.toList

end Text
end StackScript
