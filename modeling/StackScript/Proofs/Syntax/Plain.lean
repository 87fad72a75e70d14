import StackScript.Proofs.Numeral.Literal
import StackScript.Proofs.Syntax.Phrase

/-!
# StackScript.Proofs.Syntax.Plain

The numbers that occur in a source have no sign.

* `Expr.Plain`, `Stmt.Plain`: no number of a tree is the negative zero.
* `Parses.plain`: this holds of the tree of every source, because a literal has no sign.
-/

namespace StackScript
namespace Syntax

mutual

def Expr.Plain : Expr → Prop
  | .nil | .bool _ | .string _ | .get _ => True
  | .number x => Numeral.Unsigned x
  | .set _ e | .unary _ e => e.Plain
  | .binary _ a b | .and a b | .or a b | .index a b => a.Plain ∧ b.Plain
  | .call e es => e.Plain ∧ es.Plain
  | .setIndex a i v => a.Plain ∧ i.Plain ∧ v.Plain
  | .array es => es.Plain

def Exprs.Plain : Exprs → Prop
  | .nil => True
  | .cons e es => e.Plain ∧ es.Plain

end

def Stmt.Plain : Stmt → Prop
  | .empty => True
  | .seq a b => a.Plain ∧ b.Plain
  | .expression e | .print e | .var _ e | .return e => e.Plain
  | .function _ _ a | .block a => a.Plain
  | .ifElse e a b => e.Plain ∧ a.Plain ∧ b.Plain
  | .while e a => e.Plain ∧ a.Plain
  | .for i c s a => i.Plain ∧ (∀ e ∈ c, e.Plain) ∧ (∀ e ∈ s, e.Plain) ∧ a.Plain

mutual

theorem ExprPhrase.plain {p : Compile.Precedence} {ts : List Token} {e : Expr}
    (g : ExprPhrase p ts e) : e.Plain := by
  match g with
  | .tighter _ g | .grouping _ g _ => exact ExprPhrase.plain g
  | .unary _ g | .set _ _ g =>
    have plain := ExprPhrase.plain g
    exact plain
  | .nil _ | .true _ | .false _ | .string _ | .get _ => trivial
  | .number _ => exact Numeral.unsigned_ofLiteral _
  | .array _ g _ =>
    have plain := ItemsPhrase.plain g
    exact plain
  | .call g _ g' _ => exact ⟨ExprPhrase.plain g, ItemsPhrase.plain g'⟩
  | .index g _ g' _ | .binary g _ _ g' | .and g _ g' | .or g _ g' =>
    exact ⟨ExprPhrase.plain g, ExprPhrase.plain g'⟩
  | .setIndex g _ g' _ _ g'' =>
    exact ⟨ExprPhrase.plain g, ExprPhrase.plain g', ExprPhrase.plain g''⟩
termination_by structural g

theorem ItemsPhrase.plain {ts : List Token} {es : Exprs} (g : ItemsPhrase ts es) : es.Plain := by
  match g with
  | .none => trivial
  | .one g => exact ⟨ExprPhrase.plain g, trivial⟩
  | .more g _ g' => exact ⟨ExprPhrase.plain g, ItemsPhrase.plain g'⟩
termination_by structural g

end

theorem ClausePhrase.plain {close : TokenKind} {ts : List Token} {e : Option Expr}
    (h : ClausePhrase close ts e) : ∀ a ∈ e, a.Plain := by
  cases h with
  | absent => simp
  | present h =>
    rintro a ⟨⟩
    exact h.plain

theorem InitialPhrase.plain {ts : List Token} {e : Expr} (h : InitialPhrase ts e) : e.Plain := by
  cases h with
  | absent => trivial
  | present _ h => exact h.plain

theorem StmtPhrase.plain {c : Category} {ts : List Token} {a : Stmt} (h : StmtPhrase c ts a) :
    a.Plain := by
  induction h with
  | none | startEmpty => trivial
  | more _ _ ih ih' => exact ⟨ih, ih'⟩
  | statement _ ih => exact ih
  | var _ _ h | startVar _ _ h => exact h.plain
  | function _ _ _ _ _ _ _ _ ih | block _ _ _ ih => exact ih
  | expression h | startExpression h | print _ h => exact h.plain
  | ifThen _ _ h _ _ ih => exact ⟨h.plain, ih, trivial⟩
  | ifElse _ _ h _ _ _ _ _ ih ih' => exact ⟨h.plain, ih, ih'⟩
  | «while» _ _ h _ _ ih => exact ⟨h.plain, ih⟩
  | «for» _ _ _ h h' _ ih ih' => exact ⟨ih, h.plain, h'.plain, ih'⟩
  | @«return» _ _ e _ h =>
    cases e with
    | none => trivial
    | some e => exact h.plain e rfl

theorem Parses.plain {source : String} {a : Stmt} (h : Parses source a) : a.Plain := by
  obtain ⟨_, _, -, -, phrase⟩ := h
  exact phrase.plain

end Syntax
end StackScript
