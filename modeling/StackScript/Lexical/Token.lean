/-!
# StackScript.Lexical.Token

Tokens: what kind of word they are, the source text they cover, and where that text starts.

* `Keyword`, `Punctuation`: the fixed words, each with its spelling.
* `TokenKind`: a fixed word, a word with a free spelling, a fault of the source text, or the end.
* `Position`: an octet offset and a line, moved on by the text that is passed over.
-/

namespace StackScript

inductive Keyword where
  | and
  | «class»
  | «else»
  | false
  | «for»
  | «fun»
  | «if»
  | nil
  | or
  | print
  | «return»
  | super
  | this
  | true
  | var
  | «while»
deriving DecidableEq

namespace Keyword

def all : List Keyword :=
  [.and, .class, .else, .false, .for, .fun, .if, .nil, .or, .print, .return, .super, .this, .true,
    .var, .while]

def text : Keyword → String
  | .and => "and"
  | .class => "class"
  | .else => "else"
  | .false => "false"
  | .for => "for"
  | .fun => "fun"
  | .if => "if"
  | .nil => "nil"
  | .or => "or"
  | .print => "print"
  | .return => "return"
  | .super => "super"
  | .this => "this"
  | .true => "true"
  | .var => "var"
  | .while => "while"

/-- The keyword with a spelling. -/
def ofText? (word : String) : Option Keyword := all.find? fun k => k.text == word

end Keyword

inductive Punctuation where
  | leftParen
  | rightParen
  | leftBrace
  | rightBrace
  | leftBracket
  | rightBracket
  | comma
  | dot
  | minus
  | plus
  | semicolon
  | slash
  | star
  | bang
  | bangEqual
  | equal
  | equalEqual
  | greater
  | greaterEqual
  | less
  | lessEqual
deriving DecidableEq

/-- What makes a piece of source text no token of the language. -/
inductive LexicalFault where
  | unexpectedCharacter
  | unterminatedString
deriving DecidableEq

namespace LexicalFault

def message : LexicalFault → String
  | .unexpectedCharacter => "Unexpected character."
  | .unterminatedString => "Unterminated string."

end LexicalFault

inductive TokenKind where
  | punctuation (p : Punctuation)
  | keyword (k : Keyword)
  | identifier
  | string
  | number
  | fault (f : LexicalFault)
  | eof
deriving DecidableEq

/-- A place in the source. -/
structure Position where
  offset : Nat
  line : Nat
deriving DecidableEq

namespace Position

/-- Where a source begins. -/
def start : Position := ⟨0, 1⟩

/-- The place behind a character. -/
def next (p : Position) (c : Char) : Position :=
  ⟨p.offset + c.utf8Size, if c = '\n' then p.line + 1 else p.line⟩

/-- The place behind a piece of text. -/
def advance (p : Position) (text : List Char) : Position := text.foldl next p

end Position

structure Token where
  kind : TokenKind
  lexeme : String
  position : Position
deriving DecidableEq

namespace Token

def line (t : Token) : Nat := t.position.line

end Token
end StackScript
