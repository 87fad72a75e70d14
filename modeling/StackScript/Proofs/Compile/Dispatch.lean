import StackScript.Proofs.Compile.Hosts
import StackScript.Proofs.Compile.Unique

/-!
# StackScript.Proofs.Compile.Dispatch

How a production of statements chooses by the next token, and what it means that it compiles a
phrase.

* `Stays`: tokens were read and instructions emitted, and the functions around are the same.
* `statement_print`, `declaration_function`, ...: a production in front of a token.
* `Grants.phrase`: the production of a category compiles tokens.
-/

namespace StackScript
namespace Compile

open Syntax Instruction

/-- An expression of the grammar is compiled in front of a token that does not go on with it. -/
theorem granted_expression {H : Heap} (hH : H.Sound) (small : H.size ≤ UInt32.size) {n : Nat}
    {s s' : State} {v : Unit} {σ : Scopes} {t : Token} {ts us : List Token} {e : Expr}
    (g : ExprPhrase .assignment ts e) (stops : Stops t) (h : expression n s = some (v, s'))
    (hs : Clean s) (tokens : s.current :: s.rest = ts ++ t :: us)
    (takes : s.context.Takes σ e.names (e.needs σ)) (fits : e.Fits) (ext : s'.heap.Extends H) :
    Compiled (t :: us) e s s' := by
  have climbs := ExprPhrase.climbs g (Nat.le_refl _) (by decide) stops.canFollow
    (stops.done : Follows _ (t :: us) _ _ _) fun _ => stops.2
  exact grants_expression (climbs.granted hH small) h hs tokens takes fits ext

/-- The next token is of another kind than one that begins no expression. -/
theorem ExprPhrase.ne_first {p : Precedence} {k : TokenKind} (hk : leading? k = none)
    {s : State} {ts us : List Token} {e : Expr} (g : ExprPhrase p ts e)
    (tokens : s.current :: s.rest = ts ++ us) :
    s.current.kind ≠ k := by
  obtain ⟨u, vs, rfl, begins⟩ := ExprPhrase.first g
  rw [(List.cons.inj tokens).1]
  rintro rfl
  rw [hk] at begins
  cases begins

section Steps

variable {α : Type} {s s₁ s' : State} {a : α} {t : Token} {ts us : List Token} {k : TokenKind}
  {is₀ is : List Instruction}

/-- From `s` to `s'` tokens were read and instructions emitted, which leaves some tokens, and the
functions around are the same. -/
structure Stays (s : State) (ts : List Token) (is : List Instruction) (us : List Token)
    (s' : State) : Prop where
  passes : Passes s ts is s'
  clean : Clean s'
  left : s'.current :: s'.rest = us
  context : s'.context = s.context

theorem advanced {f : Unit → Compiler α} (h : (advance >>= f) s = some (a, s')) (hs : Clean s)
    (tokens : s.current :: s.rest = t :: us) (ne : t.kind ≠ .eof) :
    ∃ s₁, f () s₁ = some (a, s') ∧ Stays s [s.current] [] us s₁ := by
  obtain ⟨rfl, -⟩ := List.cons.inj tokens
  obtain ⟨_, s₁, h₁, h⟩ := bind_eq_some.1 h
  obtain ⟨p, e⟩ := runs_advance (granted_advance h₁ hs ne) hs.steady ne
  exact ⟨s₁, h, p, p.clean hs, p.next tokens, e⟩

theorem consumed {what : Expectation} {f : Unit → Compiler α}
    (h : (consume k what >>= f) s = some (a, s')) (hs : Clean s)
    (tokens : s.current :: s.rest = t :: us) (hk : t.kind = k) (ne : k ≠ .eof) :
    ∃ s₁, f () s₁ = some (a, s') ∧ Stays s [s.current] [] us s₁ := by
  obtain ⟨rfl, -⟩ := List.cons.inj tokens
  obtain ⟨_, s₁, h₁, h⟩ := bind_eq_some.1 h
  obtain ⟨-, p, e⟩ := runs_consume (granted_consume h₁ hs ne hk) hs.steady ne
  exact ⟨s₁, h, p, p.clean hs, p.next tokens, e⟩

theorem emitted {i : Instruction} {f : Unit → Compiler α}
    (h : (emit i >>= f) s = some (a, s')) (hs : Clean s) (tokens : s.current :: s.rest = us) :
    ∃ s₁, f () s₁ = some (a, s') ∧ Stays s [] [i] us s₁ := by
  obtain ⟨_, s₁, h₁, h⟩ := bind_eq_some.1 h
  obtain ⟨p, e⟩ := runs_emit (Quiet.runs h₁ hs.steady) hs.steady
  exact ⟨s₁, h, p, p.clean hs, p.left tokens, e⟩

theorem jumped {jump : UInt16 → Instruction} {f : Nat → Compiler α}
    (h : (emitJump jump >>= f) s = some (a, s')) (hs : Clean s)
    (tokens : s.current :: s.rest = us) :
    ∃ s₁, f s.draft.chunk.code.size s₁ = some (a, s') ∧ Stays s [] [jump 0xFFFF] us s₁ := by
  obtain ⟨n, s₁, h₁, h⟩ := bind_eq_some.1 h
  obtain ⟨rfl, p, e⟩ := runs_emitJump (Quiet.runs h₁ hs.steady) hs.steady
  exact ⟨s₁, h, p, p.clean hs, p.left tokens, e⟩

theorem landed {jump : UInt16 → Instruction} (hj : Chunk.IsJump jump) {d : UInt16} {n : Nat}
    {f : Unit → Compiler α} (h : (landJump n >>= f) s₁ = some (a, s')) (hs : Clean s)
    (hp : Passes s ts (is₀ ++ jump d :: is) s₁) (tokens : s₁.current :: s₁.rest = us)
    (hd : (jump d).size = 3) (hn : s.draft.chunk.code.size + width is₀ = n)
    (short : width is ≤ jumpLimit) :
    ∃ s₂, f () s₂ = some (a, s') ∧ Passes s ts (is₀ ++ jump (width is).toUInt16 :: is) s₂ ∧
      Clean s₂ ∧ s₂.current :: s₂.rest = us ∧ s₂.context = s₁.context := by
  obtain ⟨_, s₂, h₂, h⟩ := bind_eq_some.1 h
  obtain ⟨-, p, e⟩ := runs_landJump hj (granted_landJump h₂ hp hd hn short) hp hd hn
  exact ⟨s₂, h, p, p.clean hs, (p.left hp.tokens).trans tokens, e⟩

/-- What a production goes on with after it looked for a token. -/
theorem accept_bind {f : Bool → Compiler α} :
    (accept k >>= f) s =
      if s.current.kind = k then (advance >>= fun _ => f true) s else f false s := by
  have e : (accept k >>= f) s = (if s.current.kind == k then
      advance >>= fun _ => pure true else pure false : Compiler Bool) s >>= fun p => f p.1 p.2 := rfl
  rw [e]
  by_cases hk : s.current.kind = k
  · rw [if_pos (beq_iff_eq.2 hk), if_pos hk]
    rfl
  · rw [if_neg (by simpa using hk), if_neg hk]
    rfl

end Steps

section Dispatch

variable {n : Nat} {s : State}

theorem statement_print (hk : s.current.kind = .keyword .print) :
    statement (n + 1) s = (do
      advance
      expression n
      consume (.punctuation .semicolon) .semicolonAfterValue
      emit .print) s := by
  simp [statement, accept_bind, hk]

theorem statement_for (hk : s.current.kind = .keyword .for) :
    statement (n + 1) s = (do advance; forStatement n) s := by
  simp [statement, accept_bind, hk]

theorem statement_if (hk : s.current.kind = .keyword .if) :
    statement (n + 1) s = (do advance; ifStatement n) s := by
  simp [statement, accept_bind, hk]

theorem statement_return (hk : s.current.kind = .keyword .return) :
    statement (n + 1) s = (do advance; returnStatement n) s := by
  simp [statement, accept_bind, hk]

theorem statement_while (hk : s.current.kind = .keyword .while) :
    statement (n + 1) s = (do advance; whileStatement n) s := by
  simp [statement, accept_bind, hk]

theorem statement_block (hk : s.current.kind = .punctuation .leftBrace) :
    statement (n + 1) s = (do
      advance
      openScope
      block n
      closeScope) s := by
  simp [statement, accept_bind, hk]

/-- What begins an expression begins no other statement. -/
theorem statement_expression (hk : (leading? s.current.kind).isSome) :
    statement (n + 1) s = expressionStatement n s := by
  have other {k : TokenKind} (h : leading? k = none) : s.current.kind ≠ k := by
    rintro rfl
    rw [h] at hk
    cases hk
  simp [statement, accept_bind, other (k := .keyword .print) rfl, other (k := .keyword .for) rfl,
    other (k := .keyword .if) rfl, other (k := .keyword .return) rfl,
    other (k := .keyword .while) rfl, other (k := .punctuation .leftBrace) rfl]

theorem check_bind {α : Type} {k : TokenKind} {f : Bool → Compiler α} :
    (check k >>= f) s = f (s.current.kind == k) s := rfl

theorem enter_bind {x : Compiler Unit} :
    (do
      let name ← intern (← get).previous.lexeme
      beginFunction name
      openScope
      x) s = x (s.enter s.previous.lexeme) := rfl

theorem block_end (hk : s.current.kind = .punctuation .rightBrace) :
    block (n + 1) s = consume (.punctuation .rightBrace) .braceAfterBlock s := by
  rw [block, check_bind, check_bind, if_pos (by simp [hk])]

theorem block_more (hk : Begins s.current) :
    block (n + 1) s = (do declaration n; block n) s := by
  rw [block, check_bind, check_bind, if_neg (by simp [hk.1, hk.2.1])]

theorem declaration_function (hk : s.current.kind = .keyword .fun) :
    declaration (n + 1) s = (do
      advance
      functionDeclaration n
      if (← get).panicking then
        modify State.recover) s := by
  simp [declaration, accept_bind, hk]

theorem declaration_variable (hk : s.current.kind = .keyword .var) :
    declaration (n + 1) s = (do
      advance
      variableDeclaration n
      if (← get).panicking then
        modify State.recover) s := by
  simp [declaration, accept_bind, hk]

theorem declaration_statement {us : List Token} {a : Stmt} (hc : Continues s.current us a) :
    declaration (n + 1) s = (do
      statement n
      if (← get).panicking then
        modify State.recover) s := by
  have notFun : s.current.kind ≠ .keyword .fun := by
    intro hk
    simp [Continues, hk, leading?] at hc
  have notVar : s.current.kind ≠ .keyword .var := by
    intro hk
    simp [Continues, hk, leading?] at hc
  simp [declaration, accept_bind, notFun, notVar]

end Dispatch

/-- The production that reads the phrases of a category. -/
def production : Category → Nat → Compiler Unit
  | .statement => statement
  | .declaration => declaration
  | .declarations => block
  | .start => forInitializer

/-- Which tokens a production leaves of those behind a phrase. A block is read with the brace that
closes it. -/
def Closes : Category → Stmt → List Token → List Token → Prop
  | .declarations, _, us, vs => ∃ t, us = t :: vs ∧ t.kind = .punctuation .rightBrace
  | category, a, us, vs => us = vs ∧ CanEnd category a us

/-- A statement was read and compiled, up to some tokens. -/
def CompiledStmt (us : List Token) (a : Stmt) (s s' : State) : Prop :=
  ∃ ts is, Passes s ts is s' ∧ StmtCode s.context a is s'.context ∧ s'.current :: s'.rest = us

/-- The production of a category compiles a phrase, whatever stands behind it. -/
def Grants.phrase (H : Heap) (category : Category) (ts : List Token) (a : Stmt) : Prop :=
  ∀ ⦃n s s' u us vs⦄, production category n s = some (u, s') → Clean s →
    s.current :: s.rest = ts ++ us → Closes category a us vs → s.context.Hosts a →
    s'.heap.Extends H → s'.errors = #[]

/-- A production that ends without an error has compiled the one statement that its tokens are. -/
theorem compiled_of_runs {category : Category} {n : Nat} {s s' : State} {v : Unit} {a : Stmt}
    {ts us vs : List Token} (h : Runs (production category n) s v s') (hs : Steady s)
    (g : StmtPhrase category ts a) (tokens : s.current :: s.rest = ts ++ us)
    (closes : Closes category a us vs) : CompiledStmt vs a s s' := by
  cases category with
  | statement =>
    obtain ⟨rfl, ends⟩ := closes
    obtain ⟨ts', a', is, p, g', c, open'⟩ := (readsStatements n).statement h hs
    obtain ⟨rfl, rfl⟩ := StmtPhrase.unique g g' ends
      (fun ho t ht => by cases ht; exact open' ho) (tokens.symm.trans p.tokens)
    exact ⟨_, is, p, c, p.left tokens⟩
  | declaration =>
    obtain ⟨rfl, ends⟩ := closes
    obtain ⟨ts', a', is, p, g', c, open'⟩ := (readsStatements n).declaration h hs
    obtain ⟨rfl, rfl⟩ := StmtPhrase.unique g g' ends
      (fun ho t ht => by cases ht; exact open' ho) (tokens.symm.trans p.tokens)
    exact ⟨_, is, p, c, p.left tokens⟩
  | declarations =>
    obtain ⟨t, rfl, ht⟩ := closes
    obtain ⟨ts', t', a', is, p, g', ht', c⟩ := (readsStatements n).block h hs
    have both : ts ++ t :: vs = ts' ++ t' :: (s'.current :: s'.rest) := by
      simpa using tokens.symm.trans p.tokens
    obtain ⟨rfl, rfl⟩ := StmtPhrase.unique g g' (fun u hu => .inl (by cases hu; exact ht))
      (fun u hu => .inl (by cases hu; exact ht')) both
    exact ⟨_, is, p, c, (List.cons.inj (List.append_cancel_left both)).2.symm⟩
  | start =>
    obtain ⟨rfl, -⟩ := closes
    obtain ⟨ts', a', is, p, g', c⟩ := (readsStatements n).forInitializer h hs
    obtain ⟨rfl, rfl⟩ := StmtPhrase.unique g g' (canEnd_start g) (canEnd_start g')
      (tokens.symm.trans p.tokens)
    exact ⟨_, is, p, c, p.left tokens⟩

theorem Grants.phrase.compiled {H : Heap} {category : Category} {n : Nat} {s s' : State} {v : Unit}
    {a : Stmt} {ts us vs : List Token} (grants : Grants.phrase H category ts a)
    (g : StmtPhrase category ts a) (h : production category n s = some (v, s')) (hs : Clean s)
    (tokens : s.current :: s.rest = ts ++ us) (closes : Closes category a us vs)
    (hosts : s.context.Hosts a) (ext : s'.heap.Extends H) : CompiledStmt vs a s s' :=
  compiled_of_runs ⟨h, grants h hs tokens closes hosts ext⟩ hs.steady g tokens closes

end Compile
end StackScript
