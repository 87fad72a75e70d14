/-!
# StackScript.Text.Lines

Lines and words of a text.

* `endLine`: a line as it was typed, without its line end `\n` or `\r\n`.
* `cutAfter`, `lines`: the lines of a text. The last line needs no line end; an empty one is none.
* `words`: the runs of characters between white space, by the Unicode property.
-/

namespace StackScript
namespace Text

/-- Unicode's `White_Space` property. -/
def isSpace (c : Char) : Bool :=
  let n := c.toNat
  (0x9 ≤ n && n ≤ 0xD) || n = 0x20 || n = 0x85 || n = 0xA0 || n = 0x1680
    || (0x2000 ≤ n && n ≤ 0x200A) || n = 0x2028 || n = 0x2029 || n = 0x202F || n = 0x205F
    || n = 0x3000

/-- Drops one trailing carriage return. -/
def dropReturn (line : List Char) : List Char :=
  if line.getLast? = some '\r' then line.dropLast else line

/-- The line without its line end, if it has one. -/
def endLine (line : List Char) : List Char :=
  if line.getLast? = some '\n' then dropReturn line.dropLast else line

/-- Cuts a list after each element that satisfies `p`. -/
def cutAfter {α : Type} (p : α → Bool) : List α → List (List α)
  | [] => []
  | a :: as =>
    if p a then [a] :: cutAfter p as
    else
      match cutAfter p as with
      | [] => [[a]]
      | piece :: rest => (a :: piece) :: rest

def lines (text : String) : List String :=
  (cutAfter (· == '\n') text.toList).map fun line => String.ofList (endLine line)

/-- The words in front of which `word`, the current one, has been collected. -/
def wordsFrom (word : List Char) : List Char → List (List Char)
  | [] => if word.isEmpty then [] else [word.reverse]
  | c :: cs =>
    if isSpace c then
      if word.isEmpty then wordsFrom [] cs else word.reverse :: wordsFrom [] cs
    else wordsFrom (c :: word) cs

def words (line : String) : List String := (wordsFrom [] line.toList).map String.ofList

/-- Text padded with blanks on the right to at least `width` characters. -/
def padRight (width : Nat) (text : String) : String :=
  text ++ String.ofList (List.replicate (width - text.length) ' ')

/-- Text padded on the left to at least `width` characters. -/
def padLeft (filler : Char) (width : Nat) (text : String) : String :=
  String.ofList (List.replicate (width - text.length) filler) ++ text

/-- Text padded or cut to exactly `width` characters. -/
def fit (width : Nat) (text : String) : String :=
  padRight width (String.ofList (text.toList.take width))

end Text
end StackScript
