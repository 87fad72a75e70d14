import StackScript.Proofs.Syntax.Phrase
import StackScript.Proofs.Syntax.Static

/-!
# StackScript.Proofs.Syntax.Named

The variables that occur in a source have names.

* `Expr.Named`, `Stmt.Named`: no variable that a tree reads or assigns has the empty name.
* `Parses.named`: this holds of the tree of every source, because no token but the last is empty.
-/

namespace StackScript
namespace Syntax

def Expr.Named (e : Expr) : Prop := "" ∉ e.names

def Exprs.Named (es : Exprs) : Prop := "" ∉ es.names

def Stmt.Named : Stmt → Prop
  | .empty => True
  | .seq a b => a.Named ∧ b.Named
  | .expression e | .print e | .var _ e | .return e => e.Named
  | .function _ _ a | .block a => a.Named
  | .ifElse e a b => e.Named ∧ a.Named ∧ b.Named
  | .while e a => e.Named ∧ a.Named
  | .for i c s a => i.Named ∧ (∀ e ∈ c, e.Named) ∧ (∀ e ∈ s, e.Named) ∧ a.Named

section Parts

variable {a b v : Expr} {es : Exprs} {name : String}

attribute [local simp] Expr.Named Exprs.Named Expr.names Exprs.names

@[simp] theorem Expr.named_set : (Expr.set name a).Named ↔ name ≠ "" ∧ a.Named := by
  simp [eq_comm]

@[simp] theorem Expr.named_get : (Expr.get name).Named ↔ name ≠ "" := by
  simp [eq_comm]

@[simp] theorem Expr.named_unary {op : Compile.UnaryOperator} :
    (Expr.unary op a).Named ↔ a.Named := .rfl

@[simp] theorem Expr.named_binary {op : Compile.BinaryOperator} :
    (Expr.binary op a b).Named ↔ a.Named ∧ b.Named := by
  simp

@[simp] theorem Expr.named_and : (Expr.and a b).Named ↔ a.Named ∧ b.Named := by
  simp

@[simp] theorem Expr.named_or : (Expr.or a b).Named ↔ a.Named ∧ b.Named := by
  simp

@[simp] theorem Expr.named_call : (Expr.call a es).Named ↔ a.Named ∧ es.Named := by
  simp

@[simp] theorem Expr.named_index : (Expr.index a b).Named ↔ a.Named ∧ b.Named := by
  simp

@[simp] theorem Expr.named_setIndex :
    (Expr.setIndex a b v).Named ↔ a.Named ∧ b.Named ∧ v.Named := by
  simp

@[simp] theorem Expr.named_array : (Expr.array es).Named ↔ es.Named := .rfl

@[simp] theorem Exprs.named_nil : Exprs.nil.Named := List.not_mem_nil

@[simp] theorem Exprs.named_cons : (Exprs.cons a es).Named ↔ a.Named ∧ es.Named := by
  simp

/-- Expressions in which no variable occurs. -/
theorem Expr.named_of_names (h : a.names = []) : a.Named := by
  rw [Expr.Named, h]
  exact List.not_mem_nil

end Parts

/-- The identifiers among the tokens are not empty. -/
def Spelled (ts : List Token) : Prop := ∀ t ∈ ts, t.kind = .identifier → t.lexeme ≠ ""

section Spelled

variable {t : Token} {ts us : List Token}

@[simp] theorem spelled_append : Spelled (ts ++ us) ↔ Spelled ts ∧ Spelled us :=
  List.forall_mem_append

@[simp] theorem spelled_cons :
    Spelled (t :: ts) ↔ (t.kind = .identifier → t.lexeme ≠ "") ∧ Spelled ts :=
  List.forall_mem_cons

end Spelled

mutual

theorem ExprPhrase.named {p : Compile.Precedence} {ts : List Token} {e : Expr}
    (g : ExprPhrase p ts e) : Spelled ts → e.Named := by
  match g with
  | .tighter _ g => exact ExprPhrase.named g
  | .nil _ | .true _ | .false _ | .number _ | .string _ => exact fun _ => Expr.named_of_names rfl
  | .get hk => exact fun hs => Expr.named_get.2 (hs _ List.mem_cons_self hk)
  | .grouping _ g _ =>
    intro hs
    simp only [List.cons_append, spelled_cons, spelled_append] at hs
    exact ExprPhrase.named g hs.2.1
  | .array _ g _ =>
    intro hs
    simp only [List.cons_append, spelled_cons, spelled_append] at hs
    exact Expr.named_array.2 (ItemsPhrase.named g hs.2.1)
  | .call g _ g' _ =>
    intro hs
    simp only [List.cons_append, spelled_cons, spelled_append] at hs
    exact Expr.named_call.2 ⟨ExprPhrase.named g hs.1, ItemsPhrase.named g' hs.2.2.1⟩
  | .index g _ g' _ =>
    intro hs
    simp only [List.cons_append, spelled_cons, spelled_append] at hs
    exact Expr.named_index.2 ⟨ExprPhrase.named g hs.1, ExprPhrase.named g' hs.2.2.1⟩
  | .unary _ g => exact fun hs => Expr.named_unary.2 (ExprPhrase.named g (spelled_cons.1 hs).2)
  | .binary g _ _ g' =>
    intro hs
    simp only [spelled_cons, spelled_append] at hs
    exact Expr.named_binary.2 ⟨ExprPhrase.named g hs.1, ExprPhrase.named g' hs.2.2⟩
  | .and g _ g' =>
    intro hs
    simp only [spelled_cons, spelled_append] at hs
    exact Expr.named_and.2 ⟨ExprPhrase.named g hs.1, ExprPhrase.named g' hs.2.2⟩
  | .or g _ g' =>
    intro hs
    simp only [spelled_cons, spelled_append] at hs
    exact Expr.named_or.2 ⟨ExprPhrase.named g hs.1, ExprPhrase.named g' hs.2.2⟩
  | .set hk _ g =>
    intro hs
    simp only [spelled_cons] at hs
    exact Expr.named_set.2 ⟨hs.1 hk, ExprPhrase.named g hs.2.2⟩
  | .setIndex g _ g' _ _ g'' =>
    intro hs
    simp only [List.cons_append, spelled_cons, spelled_append] at hs
    exact Expr.named_setIndex.2
      ⟨ExprPhrase.named g hs.1, ExprPhrase.named g' hs.2.2.1, ExprPhrase.named g'' hs.2.2.2.2.2⟩
termination_by structural g

theorem ItemsPhrase.named {ts : List Token} {es : Exprs} (g : ItemsPhrase ts es) :
    Spelled ts → es.Named := by
  match g with
  | .none => exact fun _ => Exprs.named_nil
  | .one g => exact fun hs => Exprs.named_cons.2 ⟨ExprPhrase.named g hs, Exprs.named_nil⟩
  | .more g _ g' =>
    intro hs
    simp only [spelled_cons, spelled_append] at hs
    exact Exprs.named_cons.2 ⟨ExprPhrase.named g hs.1, ItemsPhrase.named g' hs.2.2⟩
termination_by structural g

end

theorem ClausePhrase.named {close : TokenKind} {ts : List Token} {e : Option Expr}
    (h : ClausePhrase close ts e) (hs : Spelled ts) : ∀ a ∈ e, a.Named := by
  cases h with
  | absent => simp
  | present h =>
    rintro a ⟨⟩
    exact h.named (spelled_append.1 hs).1

theorem InitialPhrase.named {ts : List Token} {e : Expr} (h : InitialPhrase ts e)
    (hs : Spelled ts) : e.Named := by
  cases h with
  | absent => exact Expr.named_of_names rfl
  | present _ h =>
    simp only [List.cons_append, spelled_cons, spelled_append] at hs
    exact h.named hs.2.1

theorem StmtPhrase.named {c : Category} {ts : List Token} {a : Stmt} (h : StmtPhrase c ts a) :
    Spelled ts → a.Named := by
  induction h with
  | none | startEmpty => exact fun _ => trivial
  | more _ _ ih ih' => exact fun hs => ⟨ih (spelled_append.1 hs).1, ih' (spelled_append.1 hs).2⟩
  | statement _ ih => exact ih
  | var _ _ h | startVar _ _ h =>
    intro hs
    simp only [spelled_cons] at hs
    exact h.named hs.2.2
  | function _ _ _ _ _ _ _ _ ih =>
    intro hs
    simp only [List.cons_append, List.append_assoc, spelled_cons, spelled_append] at hs
    exact ih hs.2.2.2.2.2.2.1
  | expression h | startExpression h => exact fun hs => h.named (spelled_append.1 hs).1
  | print _ h =>
    intro hs
    simp only [List.cons_append, spelled_cons, spelled_append] at hs
    exact h.named hs.2.1
  | block _ _ _ ih =>
    intro hs
    simp only [List.cons_append, spelled_cons, spelled_append] at hs
    exact ih hs.2.1
  | ifThen _ _ h _ _ ih =>
    intro hs
    simp only [List.cons_append, spelled_cons, spelled_append] at hs
    exact ⟨h.named hs.2.2.1, ih hs.2.2.2.2, trivial⟩
  | ifElse _ _ h _ _ _ _ _ ih ih' =>
    intro hs
    simp only [List.cons_append, List.append_assoc, spelled_cons, spelled_append] at hs
    exact ⟨h.named hs.2.2.1, ih hs.2.2.2.2.1, ih' hs.2.2.2.2.2.2⟩
  | «while» _ _ h _ _ ih =>
    intro hs
    simp only [List.cons_append, spelled_cons, spelled_append] at hs
    exact ⟨h.named hs.2.2.1, ih hs.2.2.2.2⟩
  | «for» _ _ _ h h' _ ih ih' =>
    intro hs
    simp only [List.cons_append, List.append_assoc, spelled_cons, spelled_append] at hs
    exact ⟨ih hs.2.2.1, h.named hs.2.2.2.1, h'.named hs.2.2.2.2.1, ih' hs.2.2.2.2.2⟩
  | @«return» _ _ e _ h =>
    intro hs
    have value := h.named (spelled_cons.1 hs).2
    cases e with
    | none => exact Expr.named_of_names rfl
    | some e => exact value e rfl

/-- Only the token at the end of a source is empty. -/
theorem spelled_scanFrom (cs : List Char) (p : Position) : Spelled (Lexical.scanFrom cs p) := by
  induction cs, p using Lexical.scanFrom.induct with
  | case1 cs p skipped h =>
    rw [Lexical.scanFrom]
    split
    next => simp [Spelled]
    next h' => exact absurd (h.symm.trans h') (by simp)
  | case2 cs p skipped start c rest h kind tail hm lexeme ih =>
    rw [Lexical.scanFrom]
    split
    next h' => exact absurd (h'.symm.trans h) (by simp)
    next c' rest' h' =>
      obtain ⟨rfl, rfl⟩ : c = c' ∧ rest = rest' := by simpa using h.symm.trans h'
      simp only [hm]
      refine spelled_cons.2 ⟨fun _ e => ?_, ih⟩
      have := congrArg String.toList e
      simp at this

theorem Parses.named {source : String} {a : Stmt} (h : Parses source a) : a.Named := by
  obtain ⟨ts, t, tokens, -, phrase⟩ := h
  have spelled : Spelled (Lexical.scan source) := spelled_scanFrom _ _
  rw [tokens] at spelled
  exact phrase.named (spelled_append.1 spelled).1

end Syntax
end StackScript
