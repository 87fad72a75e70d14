import StackScript.Compile.Grammar
import StackScript.Proofs.Compile.Code
import StackScript.Proofs.Compile.Passage
import StackScript.Proofs.Syntax.Phrase

/-!
# StackScript.Proofs.Compile.Expression

What the productions of expressions read and emit when they end without an error: the tokens of an
expression, and its code.

* `Ready`: an operand that the operator behind it can take as its left one.
* `Behind`: no operator of a precedence follows.
* `ReadsExpressions`: the productions, for one recursion budget.
-/

namespace StackScript
namespace Compile

open Syntax Instruction

/-- The precedence that the left operand of a form needs. -/
def Trailing.left : Trailing → Precedence
  | .call | .index => .call
  | .binary op => op.precedence
  | .and => .equality
  | .or => .conjunction

theorem tighter_next {p : Precedence} (h : p ≠ .primary) : Tighter p p.next := by
  cases p with
  | primary => exact absurd rfl h
  | _ => constructor

theorem tighter_binary (op : BinaryOperator) : Tighter op.precedence op.precedence.next :=
  tighter_next (by cases op <;> decide)

theorem next_of_tighter {p q : Precedence} (h : Tighter p q) : p.next = q := by
  cases h <;> rfl

theorem leading?_of_unarySign {k : TokenKind} {op : UnaryOperator} (h : UnarySign k op) :
    leading? k = some (.unary op) := by
  cases h <;> rfl

theorem trailing?_of_binarySign {p : Precedence} {k : TokenKind} {op : BinaryOperator}
    (h : BinarySign p k op) : trailing? k = some (.binary op) := by
  cases h <;> rfl

theorem precedence_of_binarySign {p : Precedence} {k : TokenKind} {op : BinaryOperator}
    (h : BinarySign p k op) : op.precedence = p := by
  cases h <;> rfl

theorem exprPhrase_of_le {p q : Precedence} {ts : List Token} {e : Expr} (h : ExprPhrase q ts e)
    (hpq : p ≤ q) : ExprPhrase p ts e := by
  have down : ∀ k, ∀ p : Precedence, p.rank + k = q.rank → ExprPhrase p ts e := by
    intro k
    induction k with
    | zero =>
      intro p hp
      have : p = q := by cases p <;> cases q <;> simp_all [Precedence.rank]
      exact this ▸ h
    | succ k ih =>
      intro p hp
      have last : q.rank ≤ Precedence.primary.rank := by cases q <;> decide
      refine .tighter (tighter_next ?_) (ih p.next ?_)
      · rintro rfl
        omega
      cases p <;> cases q <;> simp_all [Precedence.rank, Precedence.next] <;> omega
  exact down (q.rank - p.rank) p (by have : p.rank ≤ q.rank := hpq; omega)

/-- No operator that binds at least as tightly as `p` follows. -/
def Behind (p : Precedence) (t : Token) : Prop :=
  ∀ form, trailing? t.kind = some form → ¬p ≤ form.precedence

/-- An operand can be the left one of whatever operator follows. -/
def Ready (p : Precedence) (t : Token) (ts : List Token) (e : Expr) : Prop :=
  ExprPhrase p ts e ∧
    ∀ form, trailing? t.kind = some form → p ≤ form.precedence → ExprPhrase form.left ts e

theorem Trailing.left_le_call (form : Trailing) : form.left ≤ .call := by
  cases form with
  | binary op => cases op <;> decide
  | _ => decide

theorem ready_of_call {p : Precedence} {t : Token} {ts : List Token} {e : Expr}
    (h : ExprPhrase .call ts e) (hp : p ≤ .unary) : Ready p t ts e :=
  ⟨exprPhrase_of_le h (Nat.le_trans hp (by decide)),
    fun form _ _ => exprPhrase_of_le h form.left_le_call⟩

/-- Operators that bind less tightly than `r` take an operand of precedence `q` on their left. -/
def Admits (q r : Precedence) : Prop := ∀ form : Trailing, ¬r ≤ form.precedence → form.left ≤ q

theorem admits_same (q : Precedence) (hq : q ≤ .unary) : Admits q q := by
  intro form
  cases form with
  | binary op => cases op <;> cases q <;> revert hq <;> decide
  | _ => cases q <;> revert hq <;> decide

theorem admits_binary (op : BinaryOperator) : Admits op.precedence op.precedence.next := by
  intro form
  cases form with
  | binary op' => cases op' <;> cases op <;> decide
  | _ => cases op <;> decide

theorem ready_of_behind {p q r : Precedence} {t : Token} {ts : List Token} {e : Expr}
    (h : ExprPhrase q ts e) (hpq : p ≤ q) (hb : Behind r t) (hr : Admits q r) :
    Ready p t ts e :=
  ⟨exprPhrase_of_le h hpq, fun form hf _ => exprPhrase_of_le h (hr form (hb form hf))⟩

/-- An expression was read and its code emitted. -/
def ReadsExpression (p : Precedence) (s s' : State) : Prop :=
  ∃ ts e is, Passes s ts is s' ∧ ExprPhrase p ts e ∧ ExprCode s.context e is s'.context ∧
    Behind p s'.current

/-- The token before `s` was read on as the start of an operand. -/
def ReadsOperand (p : Precedence) (s s' : State) : Prop :=
  ∃ ts e is, Passes s ts is s' ∧ ExprCode s.context e is s'.context ∧
    Ready p s'.current (s.previous :: ts) e

/-- What the productions of expressions do, for one recursion budget. -/
structure ReadsExpressions (n : Nat) : Prop where
  expression : ∀ {s s' u}, Runs (expression n) s u s' → Steady s →
    ReadsExpression .assignment s s'
  operand : ∀ {p s s' u}, Runs (operand n p) s u s' → Steady s → p ≤ .unary →
    ReadsExpression p s s'
  operators : ∀ {p s s' u c us a is}, Runs (operators n p (decide (p ≤ .assignment))) s u s' →
    Steady s → p ≤ .unary → Ready p s.current us a → ExprCode c a is s.context →
    ∃ ts e js, Passes s ts js s' ∧ ExprCode c e (is ++ js) s'.context ∧
      ExprPhrase p (us ++ ts) e ∧ Behind p s'.current
  leading : ∀ {p form s s' u}, Runs (leading n form (decide (p ≤ .assignment))) s u s' →
    Steady s → p ≤ .unary → leading? s.previous.kind = some form → ReadsOperand p s s'
  trailing : ∀ {p form s s' u c us a is},
    Runs (trailing n form (decide (p ≤ .assignment))) s u s' → Steady s → p ≤ .unary →
    p ≤ form.precedence → trailing? s.previous.kind = some form →
    ExprPhrase form.left us a → ExprCode c a is s.context →
    ∃ ts e js, Passes s ts js s' ∧ ExprCode c e (is ++ js) s'.context ∧
      Ready p s'.current (us ++ s.previous :: ts) e
  items : ∀ {close limit what s s' k}, Runs (items n close limit what) s k s' → Steady s →
    close ≠ .eof → ∃ ts t es is, Passes s (ts ++ [t]) is s' ∧ ItemsPhrase ts es ∧
      t.kind = close ∧ ExprsCode s.context es is s'.context ∧ es.length ≤ countLimit ∧
      k = es.length.toUInt8
  itemsFrom : ∀ {limit count s s' k}, Runs (itemsFrom n limit count) s k s' → Steady s →
    count ≤ countLimit → ∃ ts e es is, Passes s ts is s' ∧ ItemsPhrase ts (.cons e es) ∧
      ExprsCode s.context (.cons e es) is s'.context ∧
      k = count + (Exprs.cons e es).length ∧ k ≤ countLimit

theorem not_runs_outOfFuel {α : Type} {s s' : State} {a : α} :
    ¬Runs (outOfFuel : Compiler α) s a s' := by
  rintro ⟨h, -⟩
  cases h

section Productions

variable {n : Nat} {s s' : State} {u : Unit}

theorem runs_expression (ih : ReadsExpressions n) (h : Runs (expression (n + 1)) s u s')
    (hs : Steady s) : ReadsExpression .assignment s s' := by
  rw [expression] at h
  exact ih.operand h hs (by decide)

theorem runs_operand {p : Precedence} (ih : ReadsExpressions n)
    (h : Runs (operand (n + 1) p) s u s') (hs : Steady s) (hp : p ≤ .unary) :
    ReadsExpression p s s' := by
  rw [operand, runs_advance_bind, runs_get_bind, previous_advance] at h
  split at h
  next => exact absurd h (not_runs_report ((Keeps.later (x := advance) rfl).sound hs.sound))
  next form hf =>
    have h₁ : Runs advance s () s.advance := ⟨rfl, h.start⟩
    have hk : s.current.kind ≠ .eof := by
      intro he
      rw [he] at hf
      cases hf
    obtain ⟨p₁, e₁⟩ := runs_advance h₁ hs hk
    obtain ⟨_, s₂, h₂, h⟩ := runs_bind h
    obtain ⟨ts₂, a, is₂, p₂, c₂, r₂⟩ := ih.leading h₂ p₁.steady hp (by rw [previous_advance]; exact hf)
    obtain ⟨_, s₃, h₃, h⟩ := runs_bind h
    obtain ⟨ts₃, e, is₃, p₃, c₃, r₃, b₃⟩ := ih.operators h₃ p₂.steady hp r₂ c₂
    have done : s₃ = s' := by
      split at h
      next =>
        obtain ⟨b, s₄, h₄, h⟩ := runs_bind h
        obtain ⟨rfl, -, p₄, -⟩ | ⟨rfl, -, rfl⟩ := runs_accept h₄ p₃.steady (by simp)
        · exact absurd h (not_runs_report p₄.steady.sound)
        · exact (runs_pure.1 h).2.1
      next => exact (runs_pure.1 h).2.1
    subst done
    refine ⟨_, e, _, p₁.trans (p₂.trans p₃), ?_, ?_, b₃⟩
    · simpa [previous_advance] using r₃
    · simpa [e₁] using c₃

theorem runs_operators {p : Precedence} {c : Context} {us : List Token} {a : Expr}
    {is : List Instruction} (ih : ReadsExpressions n)
    (h : Runs (operators (n + 1) p (decide (p ≤ .assignment))) s u s') (hs : Steady s)
    (hp : p ≤ .unary) (ha : Ready p s.current us a) (hc : ExprCode c a is s.context) :
    ∃ ts e js, Passes s ts js s' ∧ ExprCode c e (is ++ js) s'.context ∧
      ExprPhrase p (us ++ ts) e ∧ Behind p s'.current := by
  rw [operators, runs_get_bind] at h
  split at h
  next hf =>
    obtain ⟨-, rfl, -⟩ := runs_pure.1 h
    refine ⟨[], a, [], .refl hs, by simpa using hc, by simpa using ha.1, ?_⟩
    intro form hf'
    rw [hf] at hf'
    cases hf'
  next form hf =>
    split at h
    next tight =>
      have hk : s.current.kind ≠ .eof := by
        intro he
        rw [he] at hf
        cases hf
      obtain ⟨_, s₁, h₁, h⟩ := runs_bind h
      obtain ⟨p₁, e₁⟩ := runs_advance h₁ hs hk
      have previous : s₁.previous = s.current := p₁.previous
      obtain ⟨_, s₂, h₂, h⟩ := runs_bind h
      obtain ⟨ts₂, e, js₂, p₂, c₂, r₂⟩ := ih.trailing h₂ p₁.steady hp tight
        (by rw [previous]; exact hf) (ha.2 form hf tight) (e₁ ▸ hc)
      obtain ⟨ts₃, e', js₃, p₃, c₃, g₃, b₃⟩ := ih.operators h p₂.steady hp r₂ c₂
      refine ⟨_, e', _, p₁.trans (p₂.trans p₃), by simpa using c₃, ?_, b₃⟩
      simpa [previous] using g₃
    next loose =>
      obtain ⟨-, rfl, -⟩ := runs_pure.1 h
      refine ⟨[], a, [], .refl hs, by simpa using hc, by simpa using ha.1, ?_⟩
      intro form' hf'
      rw [hf] at hf'
      cases hf'
      exact loose

theorem kind_of_leading? {k : TokenKind} {form : Leading} : leading? k = some form →
    match form with
    | .grouping => k = .punctuation .leftParen
    | .array => k = .punctuation .leftBracket
    | .unary op => UnarySign k op
    | .variable => k = .identifier
    | .string => k = .string
    | .number => k = .number
    | .constant i => (k = .keyword .false ∧ i = .pushFalse) ∨ (k = .keyword .true ∧ i = .pushTrue) ∨
      (k = .keyword .nil ∧ i = .pushNil) := by
  intro h
  unfold leading? at h
  split at h <;> cases h <;> first | simp; done | constructor

theorem kind_of_trailing? {k : TokenKind} {form : Trailing} : trailing? k = some form →
    match form with
    | .call => k = .punctuation .leftParen
    | .index => k = .punctuation .leftBracket
    | .binary op => BinarySign op.precedence k op
    | .and => k = .keyword .and
    | .or => k = .keyword .or := by
  intro h
  unfold trailing? at h
  split at h <;> cases h <;> first | rfl | constructor

/-- A token that is an expression by itself. -/
theorem readsOperand_primary {p : Precedence} {ts : List Token} {e : Expr}
    {is : List Instruction} (hp : p ≤ .unary) (h : Passes s ts is s')
    (g : ExprPhrase .primary (s.previous :: ts) e) (c : ExprCode s.context e is s'.context) :
    ReadsOperand p s s' :=
  ⟨ts, e, is, h, c, ready_of_call (exprPhrase_of_le g (by decide)) hp⟩

theorem runs_variable {p : Precedence} (ih : ReadsExpressions n)
    (h : Runs (leading (n + 1) .variable (decide (p ≤ .assignment))) s u s') (hs : Steady s)
    (hp : p ≤ .unary) (hk : s.previous.kind = .identifier) : ReadsOperand p s s' := by
  rw [leading, runs_get_bind] at h
  obtain ⟨place, s₁, h₁, h⟩ := runs_bind h
  obtain ⟨p₁, r₁⟩ := runs_resolve h₁ hs
  have read {s₂ : State} (hr : Runs (emit place.read) s₁ u s₂) : ReadsOperand p s s₂ := by
    obtain ⟨p₂, e₂⟩ := runs_emit hr p₁.steady
    exact readsOperand_primary hp (p₁.trans p₂) (.get hk) (.get (e₂ ▸ r₁))
  split at h
  next assignable =>
    obtain ⟨b, s₂, h₂, h⟩ := runs_bind h
    obtain ⟨rfl, hq, p₂, e₂⟩ | ⟨rfl, -, rfl⟩ := runs_accept h₂ p₁.steady (by simp)
    · simp only [if_true] at h
      obtain ⟨_, s₃, h₃, h⟩ := runs_bind h
      obtain ⟨ts, e, is, p₃, g₃, c₃, b₃⟩ := ih.expression h₃ p₂.steady
      obtain ⟨p₄, e₄⟩ := runs_emit h p₃.steady
      refine ⟨_, .set s.previous.lexeme e, _, p₁.trans (p₂.trans (p₃.trans p₄)), ?_, ?_⟩
      · exact .set (e₂ ▸ r₁) (e₄ ▸ c₃)
      · have hp : p ≤ .assignment := by simpa using assignable
        refine ready_of_behind (q := .assignment) ?_ hp (p₄.current ▸ b₃)
          (admits_same _ (by decide))
        simpa using ExprPhrase.set hk hq g₃
    · exact read h
  next => exact read h

theorem runs_leading {p : Precedence} {form : Leading} (ih : ReadsExpressions n)
    (h : Runs (leading (n + 1) form (decide (p ≤ .assignment))) s u s') (hs : Steady s)
    (hp : p ≤ .unary) (hf : leading? s.previous.kind = some form) : ReadsOperand p s s' := by
  have hk := kind_of_leading? hf
  cases form with
  | grouping =>
    rw [leading] at h
    obtain ⟨_, s₁, h₁, h⟩ := runs_bind h
    obtain ⟨ts, e, is, p₁, g₁, c₁, -⟩ := ih.expression h₁ hs
    obtain ⟨hr, p₂, e₂⟩ := runs_consume h p₁.steady (by simp)
    exact readsOperand_primary hp (p₁.trans p₂) (.grouping hk g₁ hr) (by simpa [e₂] using c₁)
  | array =>
    rw [leading] at h
    obtain ⟨k, s₁, h₁, h⟩ := runs_bind h
    obtain ⟨ts, t, es, is, p₁, g₁, ht, c₁, fits, rfl⟩ := ih.items h₁ hs (by simp)
    obtain ⟨p₂, e₂⟩ := runs_emit h p₁.steady
    refine readsOperand_primary hp (p₁.trans p₂) ?_ (.array (e₂ ▸ c₁) fits)
    simpa using ExprPhrase.array hk g₁ ht
  | unary op =>
    rw [leading] at h
    obtain ⟨_, s₁, h₁, h⟩ := runs_bind h
    obtain ⟨ts, e, is, p₁, g₁, c₁, b₁⟩ := ih.operand h₁ hs (by decide)
    obtain ⟨p₂, e₂⟩ := runs_emit h p₁.steady
    rw [code_unary] at p₂
    refine ⟨_, .unary op e, _, p₁.trans p₂, .unary (e₂ ▸ c₁), ?_⟩
    refine ready_of_behind (q := .unary) ?_ hp (p₂.current ▸ b₁) (admits_same _ (by decide))
    simpa using ExprPhrase.unary hk g₁
  | «variable» => exact runs_variable ih h hs hp hk
  | string =>
    rw [leading, runs_get_bind] at h
    obtain ⟨r, s₁, h₁, h⟩ := runs_bind h
    obtain ⟨p₁, e₁⟩ := runs_intern h₁ hs
    obtain ⟨k, p₂, e₂⟩ := runs_emitConstant h p₁.steady
    refine readsOperand_primary hp (p₁.trans p₂) (.string hk) (.string ?_)
    simp only [Context.textConstant?, unquote, e₁]
    exact e₂
  | number =>
    rw [leading, runs_get_bind] at h
    obtain ⟨k, p₁, e₁⟩ := runs_emitConstant h hs
    exact readsOperand_primary hp p₁ (.number hk) (.number e₁)
  | constant i =>
    rw [leading] at h
    obtain ⟨p₁, e₁⟩ := runs_emit h hs
    obtain ⟨hk, rfl⟩ | ⟨hk, rfl⟩ | ⟨hk, rfl⟩ := hk
    · exact readsOperand_primary hp p₁ (.false hk) (e₁ ▸ .false)
    · exact readsOperand_primary hp p₁ (.true hk) (e₁ ▸ .true)
    · exact readsOperand_primary hp p₁ (.nil hk) (e₁ ▸ .nil)

theorem runs_trailing {p : Precedence} {form : Trailing} {c : Context} {us : List Token}
    {a : Expr} {is : List Instruction} (ih : ReadsExpressions n)
    (h : Runs (trailing (n + 1) form (decide (p ≤ .assignment))) s u s') (hs : Steady s)
    (hp : p ≤ .unary) (hpf : p ≤ form.precedence) (hf : trailing? s.previous.kind = some form)
    (ha : ExprPhrase form.left us a) (hc : ExprCode c a is s.context) :
    ∃ ts e js, Passes s ts js s' ∧ ExprCode c e (is ++ js) s'.context ∧
      Ready p s'.current (us ++ s.previous :: ts) e := by
  have hk := kind_of_trailing? hf
  cases form with
  | call =>
    rw [trailing] at h
    obtain ⟨k, s₁, h₁, h⟩ := runs_bind h
    obtain ⟨ts, t, es, js, p₁, g₁, ht, c₁, fits, rfl⟩ := ih.items h₁ hs (by simp)
    obtain ⟨p₂, e₂⟩ := runs_emit h p₁.steady
    refine ⟨_, .call a es, _, p₁.trans p₂, .call hc (e₂ ▸ c₁) fits, ready_of_call ?_ hp⟩
    simpa using ExprPhrase.call ha hk g₁ ht
  | index =>
    rw [trailing] at h
    obtain ⟨_, s₁, h₁, h⟩ := runs_bind h
    obtain ⟨ts, i, js, p₁, g₁, c₁, -⟩ := ih.expression h₁ hs
    obtain ⟨_, s₂, h₂, h⟩ := runs_bind h
    obtain ⟨hr, p₂, e₂⟩ := runs_consume h₂ p₁.steady (by simp)
    have read {s₃ : State} (hr' : Runs (emit .getIndex) s₂ u s₃) :
        ∃ ts e js, Passes s ts js s₃ ∧ ExprCode c e (is ++ js) s₃.context ∧
          Ready p s₃.current (us ++ s.previous :: ts) e := by
      obtain ⟨p₃, e₃⟩ := runs_emit hr' p₂.steady
      refine ⟨_, .index a i, _, p₁.trans (p₂.trans p₃), .index hc (e₃ ▸ e₂ ▸ c₁),
        ready_of_call ?_ hp⟩
      simpa using ExprPhrase.index ha hk g₁ hr
    split at h
    next assignable =>
      obtain ⟨b, s₃, h₃, h⟩ := runs_bind h
      obtain ⟨rfl, hq, p₃, e₃⟩ | ⟨rfl, -, rfl⟩ := runs_accept h₃ p₂.steady (by simp)
      · simp only [if_true] at h
        obtain ⟨_, s₄, h₄, h⟩ := runs_bind h
        obtain ⟨vs, v, ks, p₄, g₄, c₄, b₄⟩ := ih.expression h₄ p₃.steady
        obtain ⟨p₅, e₅⟩ := runs_emit h p₄.steady
        refine ⟨_, .setIndex a i v, _, p₁.trans (p₂.trans (p₃.trans (p₄.trans p₅))), ?_, ?_⟩
        · exact .setIndex hc c₁ (e₂ ▸ e₃ ▸ e₅ ▸ c₄)
        · have hp : p ≤ .assignment := by simpa using assignable
          refine ready_of_behind (q := .assignment) ?_ hp (p₅.current ▸ b₄)
            (admits_same _ (by decide))
          simpa using ExprPhrase.setIndex ha hk g₁ hr hq g₄
      · exact read h
    next => exact read h
  | binary op =>
    rw [trailing] at h
    obtain ⟨_, s₁, h₁, h⟩ := runs_bind h
    obtain ⟨ts, e, js, p₁, g₁, c₁, b₁⟩ := ih.operand h₁ hs (by cases op <;> decide)
    obtain ⟨p₂, e₂⟩ := runs_emitAll h p₁.steady
    rw [code_binary] at p₂
    refine ⟨_, .binary op a e, _, p₁.trans p₂, .binary hc (e₂ ▸ c₁), ?_⟩
    have ha : ExprPhrase op.precedence us a := ha
    have g : ExprPhrase op.precedence (us ++ s.previous :: (ts ++ [])) (.binary op a e) := by
      simpa using ExprPhrase.binary ha hk (tighter_binary op) g₁
    exact ready_of_behind g hpf (p₂.current ▸ b₁) (admits_binary op)
  | and =>
    rw [trailing] at h
    obtain ⟨past, s₁, h₁, h⟩ := runs_bind h
    obtain ⟨rfl, p₁, e₁⟩ := runs_emitJump h₁ hs
    obtain ⟨_, s₂, h₂, h⟩ := runs_bind h
    obtain ⟨p₂, e₂⟩ := runs_emit h₂ p₁.steady
    obtain ⟨_, s₃, h₃, h⟩ := runs_bind h
    obtain ⟨ts, e, js, p₃, g₃, c₃, b₃⟩ := ih.operand h₃ p₂.steady (by decide)
    have pending : Passes s ts ([] ++ .jumpIfFalse 0xFFFF :: .pop :: js) s₃ :=
      p₁.trans (p₂.trans p₃)
    obtain ⟨fits, p₄, e₄⟩ := runs_landJump Chunk.isJump_jumpIfFalse h pending rfl rfl
    rw [width_pop_cons] at fits p₄
    refine ⟨_, .and a e, _, p₄, .and hc (e₄ ▸ e₁ ▸ e₂ ▸ c₃) fits, ?_⟩
    exact ready_of_behind (.and ha hk g₃) hpf (pending.current_eq p₄ ▸ b₃) (admits_same _ (by decide))
  | or =>
    rw [trailing] at h
    obtain ⟨otherwise, s₁, h₁, h⟩ := runs_bind h
    obtain ⟨rfl, p₁, e₁⟩ := runs_emitJump h₁ hs
    obtain ⟨past, s₂, h₂, h⟩ := runs_bind h
    obtain ⟨rfl, p₂, e₂⟩ := runs_emitJump h₂ p₁.steady
    obtain ⟨_, s₃, h₃, h⟩ := runs_bind h
    have otherwise : Passes s [] ([] ++ .jumpIfFalse 0xFFFF :: [.jump 0xFFFF]) s₂ := p₁.trans p₂
    obtain ⟨-, p₃, e₃⟩ := runs_landJump Chunk.isJump_jumpIfFalse h₃ otherwise rfl rfl
    obtain ⟨_, s₄, h₄, h⟩ := runs_bind h
    obtain ⟨p₄, e₄⟩ := runs_emit h₄ p₃.steady
    obtain ⟨_, s₅, h₅, h⟩ := runs_bind h
    obtain ⟨ts, e, js, p₅, g₅, c₅, b₅⟩ := ih.operand h₅ p₄.steady (by decide)
    have pending : Passes s ts ([.jumpIfFalse 3] ++ .jump 0xFFFF :: .pop :: js) s₅ :=
      p₃.trans (p₄.trans p₅)
    obtain ⟨fits, p₆, e₆⟩ := runs_landJump Chunk.isJump_jump h pending rfl p₁.size.symm
    rw [width_pop_cons] at fits p₆
    refine ⟨_, .or a e, _, p₆, .or hc (e₆ ▸ e₁ ▸ e₂ ▸ e₃ ▸ e₄ ▸ c₅) fits, ?_⟩
    exact ready_of_behind (.or ha hk g₅) hpf (pending.current_eq p₆ ▸ b₅) (admits_same _ (by decide))

theorem runs_itemsFrom {limit : Limit} {count k : Nat} (ih : ReadsExpressions n)
    (h : Runs (itemsFrom (n + 1) limit count) s k s') (hs : Steady s) (hc : count ≤ countLimit) :
    ∃ ts e es is, Passes s ts is s' ∧ ItemsPhrase ts (.cons e es) ∧
      ExprsCode s.context (.cons e es) is s'.context ∧
      k = count + (Exprs.cons e es).length ∧ k ≤ countLimit := by
  rw [itemsFrom] at h
  dsimp only at h
  obtain ⟨_, s₁, h₁, h⟩ := runs_bind h
  obtain ⟨ts, e, is, p₁, g₁, c₁, -⟩ := ih.expression h₁ hs
  split at h
  next full =>
    obtain ⟨_, s₂, h₂, -⟩ := runs_bind h
    exact absurd h₂ (not_runs_report p₁.steady.sound)
  next room =>
    obtain ⟨b, s₂, h₂, h⟩ := runs_bind h
    obtain ⟨rfl, hk, p₂, e₂⟩ | ⟨rfl, -, rfl⟩ := runs_accept h₂ p₁.steady (by simp)
    · obtain ⟨us, e', es, js, p₃, g₃, c₃, rfl, fits⟩ := ih.itemsFrom h p₂.steady (by omega)
      refine ⟨_, e, .cons e' es, _, p₁.trans (p₂.trans p₃), .more g₁ hk g₃,
        .cons c₁ (e₂ ▸ c₃), ?_, fits⟩
      simp only [Exprs.length]
      omega
    · obtain ⟨rfl, rfl, -⟩ := runs_pure.1 h
      exact ⟨ts, e, .nil, is, p₁, .one g₁, by simpa using ExprsCode.cons c₁ .nil, rfl, by omega⟩

theorem runs_items {close : TokenKind} {limit : Limit} {what : Expectation} {k : UInt8}
    (ih : ReadsExpressions n) (h : Runs (items (n + 1) close limit what) s k s')
    (hs : Steady s) (hc : close ≠ .eof) :
    ∃ ts t es is, Passes s (ts ++ [t]) is s' ∧ ItemsPhrase ts es ∧ t.kind = close ∧
      ExprsCode s.context es is s'.context ∧ es.length ≤ countLimit ∧ k = es.length.toUInt8 := by
  rw [items] at h
  dsimp only at h
  obtain ⟨b, s₁, h₁, h⟩ := runs_bind h
  obtain ⟨rfl, rfl⟩ := runs_check h₁
  split at h
  next =>
    rw [pure_bind] at h
    obtain ⟨_, s₂, h₂, h⟩ := runs_bind h
    obtain ⟨hk, p₂, e₂⟩ := runs_consume h₂ hs hc
    obtain ⟨rfl, rfl, -⟩ := runs_pure.1 h
    exact ⟨[], _, .nil, [], p₂, .none, hk, e₂ ▸ .nil, by decide, rfl⟩
  next =>
    obtain ⟨m, s₂, h₂, h⟩ := runs_bind h
    obtain ⟨ts, e, es, is, p₂, g₂, c₂, rfl, fits⟩ := ih.itemsFrom h₂ hs (by decide)
    obtain ⟨_, s₃, h₃, h⟩ := runs_bind h
    obtain ⟨hk, p₃, e₃⟩ := runs_consume h₃ p₂.steady hc
    obtain ⟨rfl, rfl, -⟩ := runs_pure.1 h
    rw [Nat.zero_add] at fits
    refine ⟨ts, _, .cons e es, _, p₂.trans p₃, g₂, hk, by simpa [e₃] using c₂, fits, ?_⟩
    rw [Nat.zero_add, Nat.min_eq_left fits]

theorem readsExpressions (n : Nat) : ReadsExpressions n := by
  induction n with
  | zero =>
    exact
      { expression := fun h => absurd h not_runs_outOfFuel
        operand := fun h => absurd h not_runs_outOfFuel
        operators := fun h => absurd h not_runs_outOfFuel
        leading := fun h => absurd h not_runs_outOfFuel
        trailing := fun h => absurd h not_runs_outOfFuel
        items := fun h => absurd h not_runs_outOfFuel
        itemsFrom := fun h => absurd h not_runs_outOfFuel }
  | succ n ih =>
    exact
      { expression := runs_expression ih
        operand := runs_operand ih
        operators := runs_operators ih
        leading := runs_leading ih
        trailing := runs_trailing ih
        items := runs_items ih
        itemsFrom := runs_itemsFrom ih }

end Productions

end Compile
end StackScript
