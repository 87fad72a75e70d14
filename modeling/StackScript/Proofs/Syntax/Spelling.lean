import StackScript.Proofs.Entrywise
import StackScript.Proofs.Syntax.Phrase

/-!
# StackScript.Proofs.Syntax.Spelling

Trees do not depend on where the tokens stand.

* `Token.Alike`: the same token, maybe in another place.
* `ExprPhrase.alike`, `StmtPhrase.alike`: such tokens are the same phrase.
* `parses_spelled`: the tree of a source, told by the kinds of its tokens and their lexemes.
-/

namespace StackScript

/-- The same token, maybe in another place. -/
structure Token.Alike (t u : Token) : Prop where
  kind : u.kind = t.kind
  lexeme : u.lexeme = t.lexeme

namespace Syntax

section Alike

variable {ts us vs : List Token} {t l r : Token}

/-- Tokens on both sides of a token. -/
theorem alike_around (h : List.Forall₂ Token.Alike (ts ++ t :: us) vs) :
    ∃ ts' t' us', vs = ts' ++ t' :: us' ∧ List.Forall₂ Token.Alike ts ts' ∧
      t.Alike t' ∧ List.Forall₂ Token.Alike us us' := by
  obtain ⟨ts', rest, rfl, before, behind⟩ := forall₂_append_left h
  cases behind with
  | cons m behind => exact ⟨ts', _, _, rfl, before, m, behind⟩

/-- Tokens between two tokens. -/
theorem alike_between (h : List.Forall₂ Token.Alike (l :: ts ++ [r]) vs) :
    ∃ l' ts' r', vs = l' :: ts' ++ [r'] ∧ l.Alike l' ∧ List.Forall₂ Token.Alike ts ts' ∧
      r.Alike r' := by
  obtain ⟨_, r', _, rfl, before, m, behind⟩ := alike_around h
  cases before with
  | cons m' inner =>
    cases behind
    exact ⟨_, _, r', rfl, m', inner, m⟩

/-- A single token. -/
theorem alike_single (h : List.Forall₂ Token.Alike [t] vs) : ∃ u, vs = [u] ∧ t.Alike u := by
  cases h with
  | cons m rest =>
    cases rest
    exact ⟨_, rfl, m⟩

mutual

theorem ExprPhrase.alike {p : Compile.Precedence} {ts us : List Token} {e : Expr}
    (g : ExprPhrase p ts e) (h : List.Forall₂ Token.Alike ts us) : ExprPhrase p us e := by
  match g with
  | .tighter hp g =>
    have g := ExprPhrase.alike g h
    exact .tighter hp g
  | .nil ht =>
    obtain ⟨u, rfl, m⟩ := alike_single h
    exact .nil (m.kind.trans ht)
  | .true ht =>
    obtain ⟨u, rfl, m⟩ := alike_single h
    exact .true (m.kind.trans ht)
  | .false ht =>
    obtain ⟨u, rfl, m⟩ := alike_single h
    exact .false (m.kind.trans ht)
  | .number ht =>
    obtain ⟨u, rfl, m⟩ := alike_single h
    exact m.lexeme ▸ .number (m.kind.trans ht)
  | .string ht =>
    obtain ⟨u, rfl, m⟩ := alike_single h
    exact m.lexeme ▸ .string (m.kind.trans ht)
  | .get ht =>
    obtain ⟨u, rfl, m⟩ := alike_single h
    exact m.lexeme ▸ .get (m.kind.trans ht)
  | .grouping hl g hr =>
    obtain ⟨l, ts, r, rfl, ml, inner, mr⟩ := alike_between h
    have g := ExprPhrase.alike g inner
    exact .grouping (ml.kind.trans hl) g (mr.kind.trans hr)
  | .array hl g hr =>
    obtain ⟨l, ts, r, rfl, ml, inner, mr⟩ := alike_between h
    have g := ItemsPhrase.alike g inner
    exact .array (ml.kind.trans hl) g (mr.kind.trans hr)
  | .call g hl g' hr =>
    obtain ⟨ts, _, rfl, before, behind⟩ := forall₂_append_left h
    obtain ⟨l, us, r, rfl, ml, inner, mr⟩ := alike_between behind
    have g := ExprPhrase.alike g before
    have g' := ItemsPhrase.alike g' inner
    exact .call g (ml.kind.trans hl) g' (mr.kind.trans hr)
  | .index g hl g' hr =>
    obtain ⟨ts, _, rfl, before, behind⟩ := forall₂_append_left h
    obtain ⟨l, us, r, rfl, ml, inner, mr⟩ := alike_between behind
    have g := ExprPhrase.alike g before
    have g' := ExprPhrase.alike g' inner
    exact .index g (ml.kind.trans hl) g' (mr.kind.trans hr)
  | .unary ht g =>
    cases h with
    | cons m rest =>
      have g := ExprPhrase.alike g rest
      exact .unary (m.kind ▸ ht) g
  | .binary g ht hp g' =>
    obtain ⟨ts, t, us, rfl, before, m, behind⟩ := alike_around h
    have g := ExprPhrase.alike g before
    have g' := ExprPhrase.alike g' behind
    exact .binary g (m.kind ▸ ht) hp g'
  | .and g ht g' =>
    obtain ⟨ts, t, us, rfl, before, m, behind⟩ := alike_around h
    have g := ExprPhrase.alike g before
    have g' := ExprPhrase.alike g' behind
    exact .and g (m.kind.trans ht) g'
  | .or g ht g' =>
    obtain ⟨ts, t, us, rfl, before, m, behind⟩ := alike_around h
    have g := ExprPhrase.alike g before
    have g' := ExprPhrase.alike g' behind
    exact .or g (m.kind.trans ht) g'
  | .set ht hq g =>
    cases h with
    | cons m h =>
      cases h with
      | cons mq rest =>
        have g := ExprPhrase.alike g rest
        exact m.lexeme ▸ .set (m.kind.trans ht) (mq.kind.trans hq) g
  | .setIndex g hl g' hr hq g'' =>
    obtain ⟨ts, l, _, rfl, before, ml, behind⟩ := alike_around h
    obtain ⟨us, r, _, rfl, inner, mr, last⟩ := alike_around behind
    cases last with
    | cons mq rest =>
      have g := ExprPhrase.alike g before
      have g' := ExprPhrase.alike g' inner
      have g'' := ExprPhrase.alike g'' rest
      exact .setIndex g (ml.kind.trans hl) g' (mr.kind.trans hr) (mq.kind.trans hq) g''
termination_by structural g

theorem ItemsPhrase.alike {ts us : List Token} {es : Exprs} (g : ItemsPhrase ts es)
    (h : List.Forall₂ Token.Alike ts us) : ItemsPhrase us es := by
  match g with
  | .none =>
    cases h
    exact .none
  | .one g =>
    have g := ExprPhrase.alike g h
    exact .one g
  | .more g hc g' =>
    obtain ⟨ts, c, us, rfl, before, m, behind⟩ := alike_around h
    have g := ExprPhrase.alike g before
    have g' := ItemsPhrase.alike g' behind
    exact .more g (m.kind.trans hc) g'
termination_by structural g

end

theorem NamesPhrase.alike {xs : List String} (g : NamesPhrase ts xs)
    (h : List.Forall₂ Token.Alike ts us) : NamesPhrase us xs := by
  induction g generalizing us with
  | none =>
    cases h
    exact .none
  | one ht =>
    obtain ⟨u, rfl, m⟩ := alike_single h
    exact m.lexeme ▸ .one (m.kind.trans ht)
  | more ht hc _ ih =>
    cases h with
    | cons m h =>
      cases h with
      | cons mc rest => exact m.lexeme ▸ .more (m.kind.trans ht) (mc.kind.trans hc) (ih rest)

theorem ClausePhrase.alike {close : TokenKind} {e : Option Expr} (g : ClausePhrase close ts e)
    (h : List.Forall₂ Token.Alike ts us) : ClausePhrase close us e := by
  cases g with
  | absent ht =>
    obtain ⟨u, rfl, m⟩ := alike_single h
    exact .absent (m.kind.trans ht)
  | present g ht =>
    obtain ⟨ts, _, rfl, before, last⟩ := forall₂_append_left h
    obtain ⟨u, rfl, m⟩ := alike_single last
    exact .present (g.alike before) (m.kind.trans ht)

theorem InitialPhrase.alike {e : Expr} (g : InitialPhrase ts e)
    (h : List.Forall₂ Token.Alike ts us) : InitialPhrase us e := by
  cases g with
  | absent ht =>
    obtain ⟨u, rfl, m⟩ := alike_single h
    exact .absent (m.kind.trans ht)
  | present hq g ht =>
    obtain ⟨q, ts, t, rfl, mq, inner, mt⟩ := alike_between h
    exact .present (mq.kind.trans hq) (g.alike inner) (mt.kind.trans ht)

/-- A statement does not depend on where its tokens stand. -/
theorem StmtPhrase.alike {category : Category} {a : Stmt} (g : StmtPhrase category ts a)
    (h : List.Forall₂ Token.Alike ts us) : StmtPhrase category us a := by
  induction g generalizing us with
  | none =>
    cases h
    exact .none
  | more _ _ ih ih' =>
    obtain ⟨ts, us, rfl, before, behind⟩ := forall₂_append_left h
    exact .more (ih before) (ih' behind)
  | statement _ ih => exact .statement (ih h)
  | var ht hx g =>
    cases h with
    | cons m h =>
      cases h with
      | cons mx rest => exact mx.lexeme ▸ .var (m.kind.trans ht) (mx.kind.trans hx) (g.alike rest)
  | function ht hx hl g hr hb _ hc ih =>
    obtain ⟨_, _, rfl, front, last⟩ := forall₂_append_left h
    obtain ⟨c, rfl, mc⟩ := alike_single last
    obtain ⟨_, r, _, rfl, before, mr, behind⟩ := alike_around front
    cases behind with
    | cons mb body =>
      cases before with
      | cons mt before =>
        cases before with
        | cons mx before =>
          cases before with
          | cons ml names =>
            exact mx.lexeme ▸ .function (mt.kind.trans ht) (mx.kind.trans hx) (ml.kind.trans hl)
              (g.alike names) (mr.kind.trans hr) (mb.kind.trans hb) (ih body) (mc.kind.trans hc)
  | expression g ht =>
    obtain ⟨ts, _, rfl, before, last⟩ := forall₂_append_left h
    obtain ⟨u, rfl, m⟩ := alike_single last
    exact .expression (g.alike before) (m.kind.trans ht)
  | print ht g hs =>
    obtain ⟨t, ts, s, rfl, mt, inner, ms⟩ := alike_between h
    exact .print (mt.kind.trans ht) (g.alike inner) (ms.kind.trans hs)
  | block hb _ hc ih =>
    obtain ⟨b, ts, c, rfl, mb, inner, mc⟩ := alike_between h
    exact .block (mb.kind.trans hb) (ih inner) (mc.kind.trans hc)
  | ifThen ht hl g hr _ ih =>
    obtain ⟨_, r, us, rfl, before, mr, yes⟩ := alike_around h
    cases before with
    | cons mt before =>
      cases before with
      | cons ml inner =>
        exact .ifThen (mt.kind.trans ht) (ml.kind.trans hl) (g.alike inner) (mr.kind.trans hr)
          (ih yes)
  | ifElse ht hl g hr _ closed ho _ ih ih' =>
    obtain ⟨_, o, vs, rfl, front, mo, no⟩ := alike_around h
    obtain ⟨_, r, us, rfl, before, mr, yes⟩ := alike_around front
    cases before with
    | cons mt before =>
      cases before with
      | cons ml inner =>
        exact .ifElse (mt.kind.trans ht) (ml.kind.trans hl) (g.alike inner) (mr.kind.trans hr)
          (ih yes) closed (mo.kind.trans ho) (ih' no)
  | «while» ht hl g hr _ ih =>
    obtain ⟨_, r, us, rfl, before, mr, body⟩ := alike_around h
    cases before with
    | cons mt before =>
      cases before with
      | cons ml inner =>
        exact .while (mt.kind.trans ht) (ml.kind.trans hl) (g.alike inner) (mr.kind.trans hr)
          (ih body)
  | «for» ht hl _ g g' _ ih ih' =>
    obtain ⟨_, ws, rfl, clauses, body⟩ := forall₂_append_left h
    obtain ⟨_, vs, rfl, front, step⟩ := forall₂_append_left clauses
    obtain ⟨_, us, rfl, opening, condition⟩ := forall₂_append_left front
    cases opening with
    | cons mt opening =>
      cases opening with
      | cons ml start =>
        exact .for (mt.kind.trans ht) (ml.kind.trans hl) (ih start) (g.alike condition)
          (g'.alike step) (ih' body)
  | «return» ht g =>
    cases h with
    | cons m rest => exact .return (m.kind.trans ht) (g.alike rest)
  | startEmpty ht =>
    obtain ⟨u, rfl, m⟩ := alike_single h
    exact .startEmpty (m.kind.trans ht)
  | startVar ht hx g =>
    cases h with
    | cons m h =>
      cases h with
      | cons mx rest =>
        exact mx.lexeme ▸ .startVar (m.kind.trans ht) (mx.kind.trans hx) (g.alike rest)
  | startExpression g ht =>
    obtain ⟨ts, _, rfl, before, last⟩ := forall₂_append_left h
    obtain ⟨u, rfl, m⟩ := alike_single last
    exact .startExpression (g.alike before) (m.kind.trans ht)

end Alike

/-- A token, wherever it stands. -/
def word (kind : TokenKind) (lexeme : String) : Token := ⟨kind, lexeme, .start⟩

theorem kind_word {kind : TokenKind} (lexeme : String) : (word kind lexeme).kind = kind := rfl

namespace ExprPhrase

variable {p : Compile.Precedence} {ts : List Token} {e : Expr}

/-- A single token, or what is in parentheses, may stand anywhere. -/
theorem simple (g : ExprPhrase .primary ts e) : ExprPhrase p ts e := by
  have call : ExprPhrase .call ts e := .tighter .call g
  have unary : ExprPhrase .unary ts e := .tighter .unary call
  have factor : ExprPhrase .factor ts e := .tighter .factor unary
  have term : ExprPhrase .term ts e := .tighter .term factor
  have comparison : ExprPhrase .comparison ts e := .tighter .comparison term
  have equality : ExprPhrase .equality ts e := .tighter .equality comparison
  have conjunction : ExprPhrase .conjunction ts e := .tighter .conjunction equality
  have disjunction : ExprPhrase .disjunction ts e := .tighter .disjunction conjunction
  cases p <;> first | assumption | exact .tighter .assignment disjunction

/-- What is complete may be any expression. -/
theorem complete (g : ExprPhrase p ts e) : ExprPhrase .assignment ts e := by
  have disjunction (g : ExprPhrase .disjunction ts e) : ExprPhrase .assignment ts e :=
    .tighter .assignment g
  have conjunction (g : ExprPhrase .conjunction ts e) := disjunction (.tighter .disjunction g)
  have equality (g : ExprPhrase .equality ts e) := conjunction (.tighter .conjunction g)
  have comparison (g : ExprPhrase .comparison ts e) := equality (.tighter .equality g)
  have term (g : ExprPhrase .term ts e) := comparison (.tighter .comparison g)
  have factor (g : ExprPhrase .factor ts e) := term (.tighter .term g)
  have unary (g : ExprPhrase .unary ts e) := factor (.tighter .factor g)
  have call (g : ExprPhrase .call ts e) := unary (.tighter .unary g)
  cases p with
  | assignment => exact g
  | disjunction => exact disjunction g
  | conjunction => exact conjunction g
  | equality => exact equality g
  | comparison => exact comparison g
  | term => exact term g
  | factor => exact factor g
  | unary => exact unary g
  | call => exact call g
  | primary => exact g.simple

end ExprPhrase

/-- Kind and lexeme of a token. -/
def spelling (t : Token) : TokenKind × String := (t.kind, t.lexeme)

theorem alike_of_spelling {ts us : List Token} (h : us.map spelling = ts.map spelling) :
    List.Forall₂ Token.Alike ts us := by
  have entrywise : List.Forall₂ (fun t u => spelling t = spelling u) ts us :=
    List.forall₂_map_left_iff.1 (List.forall₂_map_right_iff.1 (h ▸ List.forall₂_eq_eq_eq ▸ rfl))
  exact entrywise.imp fun t u e => ⟨congrArg Prod.fst e.symm, congrArg Prod.snd e.symm⟩

theorem parses_spelled {source : String} {ts : List Token} {a : Stmt}
    (h : (Lexical.scan source).map spelling = ts.map spelling ++ [(.eof, "")])
    (g : StmtPhrase .declarations ts a) : Parses source a := by
  obtain ⟨us, es, tokens, front, last⟩ := List.map_eq_append_iff.1 h
  obtain ⟨e, rfl, he⟩ := List.map_eq_singleton_iff.1 last
  exact ⟨us, e, tokens, congrArg Prod.fst he, g.alike (alike_of_spelling front)⟩

end Syntax
end StackScript
