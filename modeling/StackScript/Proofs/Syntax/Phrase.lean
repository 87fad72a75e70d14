import StackScript.Compile.Rule
import StackScript.Lexical.Scan
import StackScript.Numeral.Decimal
import StackScript.Proofs.Syntax.Tree

/-!
# StackScript.Proofs.Syntax.Phrase

The grammar, as a relation between tokens and trees.

* `Tighter`: the ladder of the levels, from assignment up to what needs no operator.
* `UnarySign`, `BinarySign`: the tokens of the operators, and the level of each.
* `ExprPhrase p ts e`: the tokens `ts` are the expression `e`, whose operators bind at least as
  tightly as `p`. Of two equal operators in a row the left one binds first, except that `and`, `or`
  and `=` begin at the right.
* `StmtPhrase`: statements, declarations, and lists of them. An `else` belongs to the nearest `if`.
* `Parses`: a source and its tree.
-/

namespace StackScript
namespace Syntax

open Compile

/-- The text between the quotes of a string token. -/
def unquote (lexeme : String) : String := String.ofList (lexeme.toList.drop 1).dropLast

/-- Each level of expressions, and the next tighter one. -/
inductive Tighter : Precedence → Precedence → Prop where
  | assignment : Tighter .assignment .disjunction
  | disjunction : Tighter .disjunction .conjunction
  | conjunction : Tighter .conjunction .equality
  | equality : Tighter .equality .comparison
  | comparison : Tighter .comparison .term
  | term : Tighter .term .factor
  | factor : Tighter .factor .unary
  | unary : Tighter .unary .call
  | call : Tighter .call .primary

/-- The operators in front of an operand. -/
inductive UnarySign : TokenKind → UnaryOperator → Prop where
  | negate : UnarySign (.punctuation .minus) .negate
  | negation : UnarySign (.punctuation .bang) .negation

/-- The operators between two operands, at their levels. -/
inductive BinarySign : Precedence → TokenKind → BinaryOperator → Prop where
  | equal : BinarySign .equality (.punctuation .equalEqual) .equal
  | notEqual : BinarySign .equality (.punctuation .bangEqual) .notEqual
  | greater : BinarySign .comparison (.punctuation .greater) .greater
  | greaterEqual : BinarySign .comparison (.punctuation .greaterEqual) .greaterEqual
  | less : BinarySign .comparison (.punctuation .less) .less
  | lessEqual : BinarySign .comparison (.punctuation .lessEqual) .lessEqual
  | add : BinarySign .term (.punctuation .plus) .add
  | subtract : BinarySign .term (.punctuation .minus) .subtract
  | multiply : BinarySign .factor (.punctuation .star) .multiply
  | divide : BinarySign .factor (.punctuation .slash) .divide

mutual

inductive ExprPhrase : Precedence → List Token → Expr → Prop where
  | tighter {p q : Precedence} {ts : List Token} {e : Expr} :
      Tighter p q → ExprPhrase q ts e → ExprPhrase p ts e
  | nil {t : Token} : t.kind = .keyword .nil → ExprPhrase .primary [t] .nil
  | true {t : Token} : t.kind = .keyword .true → ExprPhrase .primary [t] (.bool true)
  | false {t : Token} : t.kind = .keyword .false → ExprPhrase .primary [t] (.bool false)
  | number {t : Token} :
      t.kind = .number → ExprPhrase .primary [t] (.number (Numeral.ofLiteral t.lexeme))
  | string {t : Token} : t.kind = .string → ExprPhrase .primary [t] (.string (unquote t.lexeme))
  | get {t : Token} : t.kind = .identifier → ExprPhrase .primary [t] (.get t.lexeme)
  | grouping {l r : Token} {ts : List Token} {e : Expr} :
      l.kind = .punctuation .leftParen → ExprPhrase .assignment ts e →
      r.kind = .punctuation .rightParen → ExprPhrase .primary (l :: ts ++ [r]) e
  | array {l r : Token} {ts : List Token} {es : Exprs} :
      l.kind = .punctuation .leftBracket → ItemsPhrase ts es →
      r.kind = .punctuation .rightBracket → ExprPhrase .primary (l :: ts ++ [r]) (.array es)
  | call {l r : Token} {ts us : List Token} {e : Expr} {es : Exprs} :
      ExprPhrase .call ts e → l.kind = .punctuation .leftParen → ItemsPhrase us es →
      r.kind = .punctuation .rightParen → ExprPhrase .call (ts ++ (l :: us ++ [r])) (.call e es)
  | index {l r : Token} {ts us : List Token} {a i : Expr} :
      ExprPhrase .call ts a → l.kind = .punctuation .leftBracket → ExprPhrase .assignment us i →
      r.kind = .punctuation .rightBracket → ExprPhrase .call (ts ++ (l :: us ++ [r])) (.index a i)
  | unary {t : Token} {ts : List Token} {op : UnaryOperator} {e : Expr} :
      UnarySign t.kind op → ExprPhrase .unary ts e →
      ExprPhrase .unary (t :: ts) (.unary op e)
  | binary {p q : Precedence} {t : Token} {ts us : List Token} {op : BinaryOperator} {a b : Expr} :
      ExprPhrase p ts a → BinarySign p t.kind op → Tighter p q → ExprPhrase q us b →
      ExprPhrase p (ts ++ t :: us) (.binary op a b)
  | and {t : Token} {ts us : List Token} {a b : Expr} :
      ExprPhrase .equality ts a → t.kind = .keyword .and → ExprPhrase .conjunction us b →
      ExprPhrase .conjunction (ts ++ t :: us) (.and a b)
  | or {t : Token} {ts us : List Token} {a b : Expr} :
      ExprPhrase .conjunction ts a → t.kind = .keyword .or → ExprPhrase .disjunction us b →
      ExprPhrase .disjunction (ts ++ t :: us) (.or a b)
  | set {t q : Token} {ts : List Token} {e : Expr} :
      t.kind = .identifier → q.kind = .punctuation .equal → ExprPhrase .assignment ts e →
      ExprPhrase .assignment (t :: q :: ts) (.set t.lexeme e)
  | setIndex {l r q : Token} {ts us vs : List Token} {a i v : Expr} :
      ExprPhrase .call ts a → l.kind = .punctuation .leftBracket → ExprPhrase .assignment us i →
      r.kind = .punctuation .rightBracket → q.kind = .punctuation .equal →
      ExprPhrase .assignment vs v →
      ExprPhrase .assignment (ts ++ (l :: us ++ r :: q :: vs)) (.setIndex a i v)

/-- Expressions with commas between them. -/
inductive ItemsPhrase : List Token → Exprs → Prop where
  | none : ItemsPhrase [] .nil
  | one {ts : List Token} {e : Expr} :
      ExprPhrase .assignment ts e → ItemsPhrase ts (.cons e .nil)
  | more {c : Token} {ts us : List Token} {e e' : Expr} {es : Exprs} :
      ExprPhrase .assignment ts e → c.kind = .punctuation .comma → ItemsPhrase us (.cons e' es) →
      ItemsPhrase (ts ++ c :: us) (.cons e (.cons e' es))

end

/-- Names with commas between them. -/
inductive NamesPhrase : List Token → List String → Prop where
  | none : NamesPhrase [] []
  | one {t : Token} : t.kind = .identifier → NamesPhrase [t] [t.lexeme]
  | more {t c : Token} {ts : List Token} {x : String} {xs : List String} :
      t.kind = .identifier → c.kind = .punctuation .comma → NamesPhrase ts (x :: xs) →
      NamesPhrase (t :: c :: ts) (t.lexeme :: x :: xs)

/-- A clause that may be absent, with the token that closes it. -/
inductive ClausePhrase (close : TokenKind) : List Token → Option Expr → Prop where
  | absent {t : Token} : t.kind = close → ClausePhrase close [t] none
  | present {ts : List Token} {e : Expr} {t : Token} :
      ExprPhrase .assignment ts e → t.kind = close → ClausePhrase close (ts ++ [t]) (some e)

/-- What stands behind the name of a variable in its declaration. -/
inductive InitialPhrase : List Token → Expr → Prop where
  | absent {t : Token} : t.kind = .punctuation .semicolon → InitialPhrase [t] .nil
  | present {q t : Token} {ts : List Token} {e : Expr} :
      q.kind = .punctuation .equal → ExprPhrase .assignment ts e →
      t.kind = .punctuation .semicolon → InitialPhrase (q :: ts ++ [t]) e

inductive Category where
  | statement
  | declaration
  | declarations
  /-- the first clause of a `for` -/
  | start

inductive StmtPhrase : Category → List Token → Stmt → Prop where
  | none : StmtPhrase .declarations [] .empty
  | more {ts us : List Token} {a b : Stmt} :
      StmtPhrase .declaration ts a → StmtPhrase .declarations us b →
      StmtPhrase .declarations (ts ++ us) (.seq a b)
  | statement {ts : List Token} {a : Stmt} :
      StmtPhrase .statement ts a → StmtPhrase .declaration ts a
  | var {t x : Token} {ts : List Token} {e : Expr} :
      t.kind = .keyword .var → x.kind = .identifier → InitialPhrase ts e →
      StmtPhrase .declaration (t :: x :: ts) (.var x.lexeme e)
  | function {t x l r b c : Token} {ts us : List Token} {xs : List String} {a : Stmt} :
      t.kind = .keyword .fun → x.kind = .identifier → l.kind = .punctuation .leftParen →
      NamesPhrase ts xs → r.kind = .punctuation .rightParen → b.kind = .punctuation .leftBrace →
      StmtPhrase .declarations us a → c.kind = .punctuation .rightBrace →
      StmtPhrase .declaration (t :: x :: l :: ts ++ r :: b :: us ++ [c])
        (.function x.lexeme xs a)
  | expression {ts : List Token} {e : Expr} {t : Token} :
      ExprPhrase .assignment ts e → t.kind = .punctuation .semicolon →
      StmtPhrase .statement (ts ++ [t]) (.expression e)
  | print {t s : Token} {ts : List Token} {e : Expr} :
      t.kind = .keyword .print → ExprPhrase .assignment ts e →
      s.kind = .punctuation .semicolon → StmtPhrase .statement (t :: ts ++ [s]) (.print e)
  | block {b c : Token} {ts : List Token} {a : Stmt} :
      b.kind = .punctuation .leftBrace → StmtPhrase .declarations ts a →
      c.kind = .punctuation .rightBrace → StmtPhrase .statement (b :: ts ++ [c]) (.block a)
  | ifThen {t l r : Token} {ts us : List Token} {e : Expr} {a : Stmt} :
      t.kind = .keyword .if → l.kind = .punctuation .leftParen → ExprPhrase .assignment ts e →
      r.kind = .punctuation .rightParen → StmtPhrase .statement us a →
      StmtPhrase .statement (t :: l :: ts ++ r :: us) (.ifElse e a .empty)
  | ifElse {t l r o : Token} {ts us vs : List Token} {e : Expr} {a b : Stmt} :
      t.kind = .keyword .if → l.kind = .punctuation .leftParen → ExprPhrase .assignment ts e →
      r.kind = .punctuation .rightParen → StmtPhrase .statement us a → a.isOpen = false →
      o.kind = .keyword .else → StmtPhrase .statement vs b →
      StmtPhrase .statement (t :: l :: ts ++ r :: us ++ o :: vs) (.ifElse e a b)
  | while {t l r : Token} {ts us : List Token} {e : Expr} {a : Stmt} :
      t.kind = .keyword .while → l.kind = .punctuation .leftParen → ExprPhrase .assignment ts e →
      r.kind = .punctuation .rightParen → StmtPhrase .statement us a →
      StmtPhrase .statement (t :: l :: ts ++ r :: us) (.while e a)
  | for {t l : Token} {ts us vs ws : List Token} {i a : Stmt} {c e : Option Expr} :
      t.kind = .keyword .for → l.kind = .punctuation .leftParen → StmtPhrase .start ts i →
      ClausePhrase (.punctuation .semicolon) us c → ClausePhrase (.punctuation .rightParen) vs e →
      StmtPhrase .statement ws a →
      StmtPhrase .statement (t :: l :: ts ++ us ++ vs ++ ws) (.for i c e a)
  | return {t : Token} {ts : List Token} {e : Option Expr} :
      t.kind = .keyword .return → ClausePhrase (.punctuation .semicolon) ts e →
      StmtPhrase .statement (t :: ts) (.return (e.getD .nil))
  | startEmpty {t : Token} : t.kind = .punctuation .semicolon → StmtPhrase .start [t] .empty
  | startVar {t x : Token} {ts : List Token} {e : Expr} :
      t.kind = .keyword .var → x.kind = .identifier → InitialPhrase ts e →
      StmtPhrase .start (t :: x :: ts) (.var x.lexeme e)
  | startExpression {ts : List Token} {e : Expr} {t : Token} :
      ExprPhrase .assignment ts e → t.kind = .punctuation .semicolon →
      StmtPhrase .start (ts ++ [t]) (.expression e)

/-- The tree of a source. -/
def Parses (source : String) (a : Stmt) : Prop :=
  ∃ ts t, Lexical.scan source = ts ++ [t] ∧ t.kind = .eof ∧ StmtPhrase .declarations ts a

end Syntax
end StackScript
