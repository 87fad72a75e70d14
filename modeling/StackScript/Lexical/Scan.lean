import StackScript.Lexical.Token

/-!
# StackScript.Lexical.Scan

Source text cut into tokens.

* `layout`: how much white space and comments stand in front of a text.
* `munch`: the kind of the token that starts with a given character, and how many of the
  characters behind it belong to it. A token takes as much as it can.
* `scan`: all tokens of a source, the last of them `eof`.
-/

namespace StackScript
namespace Lexical

def isLetter (c : Char) : Bool :=
  ('a' ≤ c && c ≤ 'z') || ('A' ≤ c && c ≤ 'Z') || c == '_'

def isDigit (c : Char) : Bool := '0' ≤ c && c ≤ '9'

def isBlank (c : Char) : Bool := c == ' ' || c == '\r' || c == '\t' || c == '\n'

/-- The number of characters up to the first one that is neither blank nor in a comment. A comment
runs from two slashes to the end of the line. -/
def layoutFrom : Bool → List Char → Nat
  | _, [] => 0
  | true, c :: cs => if c = '\n' then layoutFrom false cs + 1 else layoutFrom true cs + 1
  | false, '/' :: '/' :: cs => layoutFrom true cs + 2
  | false, c :: cs => if isBlank c then layoutFrom false cs + 1 else 0

def layout (cs : List Char) : Nat := layoutFrom false cs

/-- The number of leading characters that satisfy `p`. -/
def run (p : Char → Bool) (cs : List Char) : Nat := (cs.takeWhile p).length

/-- The number of characters of a number behind its first digit: more digits, and a point if a
digit follows it. -/
def numberTail (cs : List Char) : Nat :=
  let whole := run isDigit cs
  match cs.drop whole with
  | '.' :: d :: ds => if isDigit d then whole + 2 + run isDigit ds else whole
  | _ => whole

/-- The characters of a string behind its opening quote, up to its end or to the end of the
line. -/
def stringTail (cs : List Char) : TokenKind × Nat :=
  let body := run (fun c => c != '"' && c != '\n') cs
  match cs.drop body with
  | '"' :: _ => (.string, body + 1)
  | _ => (.fault .unterminatedString, body)

/-- The word that starts with a letter. -/
def wordKind (word : List Char) : TokenKind :=
  match Keyword.ofText? (String.ofList word) with
  | some k => .keyword k
  | none => .identifier

/-- `two` if an equals sign follows, else `one`. -/
def orEqual (two one : Punctuation) : List Char → TokenKind × Nat
  | '=' :: _ => (.punctuation two, 1)
  | _ => (.punctuation one, 0)

/-- The token that starts with `c`: its kind and how many of the characters `cs` belong to it. -/
def munch (c : Char) (cs : List Char) : TokenKind × Nat :=
  if isLetter c then
    let tail := run (fun d => isLetter d || isDigit d) cs
    (wordKind (c :: cs.take tail), tail)
  else if isDigit c then
    (.number, numberTail cs)
  else
    match c with
    | '(' => (.punctuation .leftParen, 0)
    | ')' => (.punctuation .rightParen, 0)
    | '{' => (.punctuation .leftBrace, 0)
    | '}' => (.punctuation .rightBrace, 0)
    | '[' => (.punctuation .leftBracket, 0)
    | ']' => (.punctuation .rightBracket, 0)
    | ';' => (.punctuation .semicolon, 0)
    | ',' => (.punctuation .comma, 0)
    | '.' => (.punctuation .dot, 0)
    | '-' => (.punctuation .minus, 0)
    | '+' => (.punctuation .plus, 0)
    | '/' => (.punctuation .slash, 0)
    | '*' => (.punctuation .star, 0)
    | '!' => orEqual .bangEqual .bang cs
    | '=' => orEqual .equalEqual .equal cs
    | '<' => orEqual .lessEqual .less cs
    | '>' => orEqual .greaterEqual .greater cs
    | '"' => stringTail cs
    | _ => (.fault .unexpectedCharacter, 0)

/-- The tokens of the text that starts at a position. -/
def scanFrom (cs : List Char) (p : Position) : List Token :=
  let skipped := layout cs
  let start := p.advance (cs.take skipped)
  match _h : cs.drop skipped with
  | [] => [⟨.eof, "", start⟩]
  | c :: rest =>
    let (kind, tail) := munch c rest
    let lexeme := c :: rest.take tail
    ⟨kind, String.ofList lexeme, start⟩ :: scanFrom (rest.drop tail) (start.advance lexeme)
termination_by cs.length
decreasing_by
  have := congrArg List.length _h
  simp only [List.length_drop, List.length_cons] at this ⊢
  omega

/-- The tokens of a source. -/
def scan (source : String) : List Token := scanFrom source.toList .start

end Lexical
end StackScript
