import StackScript.Proofs.Compile.Expression

/-!
# StackScript.Proofs.Compile.Statement

What the productions of statements and declarations read and emit when they end without an error:
the tokens of a statement, and its code.

* `ReadsStatement`: a statement was read, whose first token may have been read before.
* `ReadsFunction`: the parameters and the body of a function were read.
* `ReadsStatements`: the productions, for one recursion budget.
-/

namespace StackScript
namespace Compile

open Syntax Instruction

/-- The tokens from `s` on, behind those of `us`, were read as a statement, and its code was
emitted. What an `else` behind it would belong to is not left open. -/
def ReadsStatement (category : Category) (us : List Token) (s s' : State) : Prop :=
  ∃ ts a is, Passes s ts is s' ∧ StmtPhrase category (us ++ ts) a ∧
    StmtCode s.context a is s'.context ∧ (a.isOpen = true → s'.current.kind ≠ .keyword .else)

/-- A variable was read behind `var`. -/
def ReadsVariable (s s' : State) : Prop :=
  ∃ x ts e is, Passes s (x :: ts) is s' ∧ x.kind = .identifier ∧ InitialPhrase ts e ∧
    StmtCode s.context (.var x.lexeme e) is s'.context

/-- The parameters and the body of a function were read behind its name, and its closure was
made. -/
def ReadsFunction (s s' : State) : Prop :=
  ∃ l ts r b us t xs a is lines c₂ c₃ k,
    Passes s (l :: ts ++ r :: b :: us ++ [t]) (c₃.closureCode k) s' ∧
    l.kind = .punctuation .leftParen ∧ NamesPhrase ts xs ∧ r.kind = .punctuation .rightParen ∧
    b.kind = .punctuation .leftBrace ∧ StmtPhrase .declarations us a ∧
    t.kind = .punctuation .rightBrace ∧
    (s.context.enterFunction s.previous.lexeme).addParameters? xs = some c₂ ∧
    StmtCode c₂ a is c₃ ∧ Array.size lines = width (is ++ [.pushNil, .ret]) ∧
    c₃.leaveFunction? (c₃.finish (stream (is ++ [.pushNil, .ret])) lines) = some (s'.context, k)

/-- Declarations were read, with the brace behind them. -/
def ReadsBlock (s s' : State) : Prop :=
  ∃ ts t a is, Passes s (ts ++ [t]) is s' ∧ StmtPhrase .declarations ts a ∧
    t.kind = .punctuation .rightBrace ∧ StmtCode s.context a is s'.context

/-- The condition of a `for` was read; what leaves the loop has no distance yet. -/
def ReadsCondition (exit : Option Nat) (s s' : State) : Prop :=
  ∃ ts c cs, ClausePhrase (.punctuation .semicolon) ts c ∧ ClauseCode s.context c cs s'.context ∧
    Passes s ts (cs.elim [] fun is => is ++ [.jumpIfFalse 0xFFFF, .pop]) s' ∧
    exit = cs.map fun is => s.draft.chunk.code.size + width is

/-- The increment of a `for` was read. -/
def ReadsIncrement (start next : Nat) (s s' : State) : Prop :=
  ∃ ts e es, ClausePhrase (.punctuation .rightParen) ts e ∧ ClauseCode s.context e es s'.context ∧
    match es with
    | none => Passes s ts [] s' ∧ next = start
    | some is =>
      let again := s.draft.chunk.code.size + (width is + 7) - start
      again ≤ jumpLimit ∧ next = s.draft.chunk.code.size + 3 ∧
        Passes s ts (.jump (width is + 4).toUInt16 :: (is ++ [.pop, .loop again.toUInt16])) s'

/-- What the productions of statements do, for one recursion budget. -/
structure ReadsStatements (n : Nat) : Prop where
  declaration : ∀ {s s' u}, Runs (declaration n) s u s' → Steady s →
    ReadsStatement .declaration [] s s'
  functionDeclaration : ∀ {s s' u}, Runs (functionDeclaration n) s u s' → Steady s →
    s.previous.kind = .keyword .fun → ReadsStatement .declaration [s.previous] s s'
  variableDeclaration : ∀ {s s' u}, Runs (variableDeclaration n) s u s' → Steady s →
    ReadsVariable s s'
  function : ∀ {s s' u}, Runs (function n) s u s' → Steady s → ReadsFunction s s'
  parameters : ∀ {s s' u}, Runs (parameters n) s u s' → Steady s → 0 < s.draft.depth →
    ∃ ts x xs, Passes s ts [] s' ∧ NamesPhrase ts (x :: xs) ∧
      s.context.addParameters? (x :: xs) = some s'.context
  statement : ∀ {s s' u}, Runs (statement n) s u s' → Steady s → ReadsStatement .statement [] s s'
  block : ∀ {s s' u}, Runs (block n) s u s' → Steady s → ReadsBlock s s'
  expressionStatement : ∀ {s s' u}, Runs (expressionStatement n) s u s' → Steady s →
    ∃ ts e t is, Passes s (ts ++ [t]) (is ++ [.pop]) s' ∧ ExprPhrase .assignment ts e ∧
      t.kind = .punctuation .semicolon ∧ ExprCode s.context e is s'.context
  returnStatement : ∀ {s s' u}, Runs (returnStatement n) s u s' → Steady s →
    s.previous.kind = .keyword .return → ReadsStatement .statement [s.previous] s s'
  ifStatement : ∀ {s s' u}, Runs (ifStatement n) s u s' → Steady s →
    s.previous.kind = .keyword .if → ReadsStatement .statement [s.previous] s s'
  whileStatement : ∀ {s s' u}, Runs (whileStatement n) s u s' → Steady s →
    s.previous.kind = .keyword .while → ReadsStatement .statement [s.previous] s s'
  forStatement : ∀ {s s' u}, Runs (forStatement n) s u s' → Steady s →
    s.previous.kind = .keyword .for → ReadsStatement .statement [s.previous] s s'
  forInitializer : ∀ {s s' u}, Runs (forInitializer n) s u s' → Steady s →
    ∃ ts a is, Passes s ts is s' ∧ StmtPhrase .start ts a ∧ StmtCode s.context a is s'.context
  forCondition : ∀ {s s' exit}, Runs (forCondition n) s exit s' → Steady s →
    ReadsCondition exit s s'
  forIncrement : ∀ {s s' start next}, Runs (forIncrement n start) s next s' → Steady s →
    start ≤ s.draft.chunk.code.size → ReadsIncrement start next s s'

section Productions

set_option synthInstance.maxSize 5000

variable {n : Nat} {s s' : State} {u : Unit}

/-- What follows the keyword of a statement. -/
theorem Passes.keyword {s₁ : State} {category : Category} (hp : Passes s [s.current] [] s₁)
    (hx : s₁.context = s.context) (h : ReadsStatement category [s₁.previous] s₁ s') :
    ReadsStatement category [] s s' := by
  obtain ⟨ts, a, is, p, g, c, b⟩ := h
  have previous : s₁.previous = s.current := hp.previous
  exact ⟨_, a, _, hp.trans p, by simpa [previous] using g, by simpa [hx] using c, b⟩

theorem runs_variableDeclaration (h : Runs (variableDeclaration (n + 1)) s u s') (hs : Steady s) :
    ReadsVariable s s' := by
  rw [variableDeclaration] at h
  dsimp only at h
  obtain ⟨k, s₁, h₁, h⟩ := runs_bind h
  obtain ⟨hx, p₁, v₁⟩ := runs_newVariable h₁ hs
  obtain ⟨b, s₂, h₂, h⟩ := runs_bind h
  have rest {s₂ s₃ : State} {ts : List Token} {e : Expr} {is : List Instruction}
      (p₂ : Passes s₁ ts is s₂) (c₂ : ExprCode s₁.context e is s₂.context)
      (g : ∀ t : Token, t.kind = .punctuation .semicolon → InitialPhrase (ts ++ [t]) e)
      (hr : Runs (do
        consume (.punctuation .semicolon) .semicolonAfterDeclaration
        defineVariable k) s₂ u s₃) : ReadsVariable s s₃ := by
    obtain ⟨_, s₄, h₄, hr⟩ := runs_bind hr
    obtain ⟨ht, p₄, e₄⟩ := runs_consume h₄ p₂.steady (by simp)
    obtain ⟨p₅, e₅⟩ := runs_defineVariable hr p₄.steady
    refine ⟨s.current, _, e, _, p₁.trans (p₂.trans (p₄.trans p₅)), hx, ?_, ?_⟩
    · simpa using g _ ht
    · rw [e₅, e₄]
      exact .var v₁ c₂
  obtain ⟨rfl, hq, p₂, e₂⟩ | ⟨rfl, -, rfl⟩ := runs_accept h₂ p₁.steady (by simp)
  · simp only [if_true] at h
    obtain ⟨_, s₃, h₃, h⟩ := runs_bind h
    obtain ⟨ts, e, is, p₃, g₃, c₃, -⟩ := (readsExpressions n).expression h₃ p₂.steady
    exact rest (p₂.trans p₃) (e₂ ▸ c₃) (fun t ht => .present hq g₃ ht) h
  · obtain ⟨_, s₃, h₃, h⟩ := runs_bind h
    obtain ⟨p₃, e₃⟩ := runs_emit h₃ p₁.steady
    exact rest p₃ (e₃ ▸ .nil) (fun t ht => .absent ht) h

/-- One parameter. -/
theorem runs_parameter {k : UInt8} {s₁ : State} {v : Unit} (hs : Steady s)
    (hd : 0 < s.draft.depth) (few : s.draft.arity + 1 ≤ countLimit)
    (h : Runs (newVariable .parameterName)
      { s with draft := { s.draft with arity := s.draft.arity + 1 } } k s₁)
    (h' : Runs (defineVariable k) s₁ v s') :
    s.current.kind = .identifier ∧ Passes s [s.current] [] s' ∧
      s.context.addParameter? s.current.lexeme = some s'.context ∧ 0 < s'.draft.depth := by
  have p₀ := Passes.ofDraft hs (d := { s.draft with arity := s.draft.arity + 1 }) rfl
  obtain ⟨hx, p₁, v₁⟩ := runs_newVariable h p₀.steady
  obtain ⟨p₂, e₂⟩ := runs_defineVariable h' p₁.steady
  obtain ⟨c, hc, e⟩ := Option.map_eq_some_iff.1 ((Context.newVariable?_of_scope hd).symm.trans v₁)
  obtain ⟨rfl, -⟩ := Prod.mk.inj e
  have depth : 0 < s₁.context.draft.depth := Context.depth_addLocal? hc ▸ hd
  rw [Context.definition, if_pos depth] at p₂
  refine ⟨hx, p₀.trans (p₁.trans p₂), ?_, ?_⟩
  · refine (if_pos few).trans ?_
    rw [e₂]
    exact congrArg (Option.map Context.makeReadable) hc
  · have behind : 0 < s'.context.draft.depth := by
      rw [e₂, Context.depth_makeReadable]
      exact depth
    exact behind

theorem runs_parameters (ih : ReadsStatements n) (h : Runs (parameters (n + 1)) s u s')
    (hs : Steady s) (hd : 0 < s.draft.depth) :
    ∃ ts x xs, Passes s ts [] s' ∧ NamesPhrase ts (x :: xs) ∧
      s.context.addParameters? (x :: xs) = some s'.context := by
  rw [parameters] at h
  dsimp only at h
  have p₀ := Passes.ofDraft hs (d := { s.draft with arity := s.draft.arity + 1 }) rfl
  rw [runs_modify_bind, runs_get_bind] at h
  split at h
  next =>
    obtain ⟨_, s₁, h₁, -⟩ := runs_bind h
    exact absurd h₁ (not_runs_reportCurrent p₀.steady.sound)
  next few =>
    obtain ⟨k, s₁, h₁, h⟩ := runs_bind h
    obtain ⟨_, s₂, h₂, h⟩ := runs_bind h
    obtain ⟨hx, p₂, added, depth⟩ := runs_parameter hs hd (Nat.le_of_not_lt few) h₁ h₂
    obtain ⟨b, s₃, h₃, h⟩ := runs_bind h
    obtain ⟨rfl, hk, p₃, e₃⟩ | ⟨rfl, -, rfl⟩ := runs_accept h₃ p₂.steady (by simp)
    · have depth₃ : 0 < s₃.draft.depth := by
        have same : s₃.draft.depth = s₂.draft.depth := congrArg (·.draft.depth) e₃
        rwa [same]
      obtain ⟨ts, y, ys, p₄, g₄, a₄⟩ := ih.parameters h p₃.steady depth₃
      refine ⟨_, s.current.lexeme, y :: ys, p₂.trans (p₃.trans p₄), .more hx hk g₄, ?_⟩
      rw [Context.addParameters?, added]
      exact e₃ ▸ a₄
    · obtain ⟨-, rfl, -⟩ := runs_pure.1 h
      refine ⟨_, s.current.lexeme, [], p₂, .one hx, ?_⟩
      rw [Context.addParameters?, added]
      rfl

/-- The state at the parameters of a function. -/
def State.enter (s : State) (name : String) : State :=
  let (heap, r) := s.heap.intern name
  { s with
    heap
    draft := { Draft.new .function (some r) with depth := 1 }
    enclosing := s.draft :: s.enclosing }

theorem runs_enter {β : Type} {x : Compiler β} {b : β} :
    Runs (do
      let name ← intern (← get).previous.lexeme
      beginFunction name
      openScope
      x) s b s' ↔ Runs x (s.enter s.previous.lexeme) b s' := Iff.rfl

/-- The function that ends is what was compiled since it began, and a return. -/
theorem runs_endFunction {p : Function × Array Capture} {is : List Instruction}
    (h : Runs endFunction s p s') (hs : Steady s) (hc : s.draft.chunk.code.toList = stream is) :
    ∃ lines, Array.size lines = width (is ++ [.pushNil, .ret]) ∧
      p = (s.context.finish (stream (is ++ [.pushNil, .ret])) lines, s.draft.captures) ∧
      s' = { s with
        draft := s.enclosing.headD (.new .script none)
        enclosing := s.enclosing.tail
        summaries := s'.summaries } := by
  have p₁ := hs.emit .pushNil
  have p₂ := p₁.trans (p₁.steady.emit .ret)
  have code : ((s.emit .pushNil).emit .ret).draft.chunk.code.toList =
      stream (is ++ [.pushNil, .ret]) := by
    rw [p₂.code, hc, stream_append, stream_append]
    rfl
  obtain ⟨rfl, e⟩ := runs_endFunction_eq h
  refine ⟨((s.emit .pushNil).emit .ret).draft.chunk.lines, ?_, ?_, e⟩
  · rw [p₂.steady.lines, ← Array.length_toList, code, length_stream]
  · rw [Context.finish, ← code, Array.toArray_toList]
    rfl

theorem Passes.allocated (hs : Steady s) (heap : Heap) : Passes s [] [] { s with heap } :=
  ofContext hs s.draft.chunk heap rfl rfl

/-- What is done for a function behind its parameters. -/
def functionBody (n : Nat) : Compiler Unit := do
  consume (.punctuation .rightParen) .parenAfterParameters
  consume (.punctuation .leftBrace) .braceBeforeBody
  block n
  let (f, captures) ← endFunction
  let r ← allocate (.function f)
  emit (.closure (← addConstant (.object r)))
  emitAll (captures.toList.map .capture)

theorem runs_functionBody (ih : ReadsStatements n) {s₂ : State} {ts : List Token}
    {xs : List String} (hs : Steady s) (hl : s.current.kind = .punctuation .leftParen)
    (p₂ : Passes (s.enter s.previous.lexeme) ([s.current] ++ ts) [] s₂) (g₂ : NamesPhrase ts xs)
    (x₂ : (s.context.enterFunction s.previous.lexeme).addParameters? xs = some s₂.context)
    (hr : Runs (functionBody n) s₂ u s') : ReadsFunction s s' := by
  rw [functionBody] at hr
  obtain ⟨_, s₃, h₃, hr⟩ := runs_bind hr
  obtain ⟨hp, p₃, e₃⟩ := runs_consume h₃ p₂.steady (by simp)
  obtain ⟨_, s₄, h₄, hr⟩ := runs_bind hr
  obtain ⟨hb, p₄, e₄⟩ := runs_consume h₄ p₃.steady (by simp)
  obtain ⟨_, s₅, h₅, hr⟩ := runs_bind hr
  obtain ⟨us, t, a, is, p₅, g₅, ht, c₅⟩ := ih.block h₅ p₄.steady
  have body := p₂.trans (p₃.trans (p₄.trans p₅))
  have code : s₅.draft.chunk.code.toList = stream is := body.code
  obtain ⟨_, s₆, h₆, hr⟩ := runs_bind hr
  obtain ⟨lines, hlines, rfl, e₆⟩ := runs_endFunction h₆ p₅.steady code
  obtain ⟨d, ds, he⟩ : ∃ d ds, s₅.enclosing = d :: ds := by
    have := body.enclosing
    cases he : s₅.enclosing with
    | nil => simp [he, State.enter] at this
    | cons d ds => exact ⟨d, ds, rfl⟩
  obtain ⟨od, ods⟩ : d.octets = s.draft.octets ∧ ds.map Draft.octets =
      s.enclosing.map Draft.octets := by
    simpa [he, State.enter] using body.enclosing
  obtain ⟨hcode, hlines'⟩ := Prod.mk.inj od
  have p₆ : Passes s ([s.current] ++ ts ++ ([s₂.current] ++ ([s₃.current] ++ (us ++ [t])))) []
      s₆ := by
    rw [e₆, he]
    refine ⟨⟨p₅.steady.errors, p₅.steady.calm, p₅.steady.tokens, ?_⟩, body.tokens,
      body.previous, ?_, ods⟩
    · simpa [hcode, hlines'] using hs.lines
    · simp [hcode]
  obtain ⟨r, s₇, h₇, hr⟩ := runs_bind hr
  obtain ⟨e₇, -⟩ := runs_modifyGet.1 h₇
  cases e₇
  have p₇ := Passes.allocated p₆.steady
    (s₆.heap.allocate (.function (s₅.context.finish (stream (is ++ [.pushNil, .ret])) lines))).1
  obtain ⟨k, s₈, h₈, hr⟩ := runs_bind hr
  obtain ⟨p₈, e₈⟩ := runs_addConstant h₈ p₇.steady
  obtain ⟨_, s₉, h₉, hr⟩ := runs_bind hr
  obtain ⟨p₉, e₉⟩ := runs_emit h₉ p₈.steady
  obtain ⟨p₁₀, e₁₀⟩ := runs_emitAll hr p₉.steady
  refine ⟨s.current, ts, s₂.current, s₃.current, us, t, xs, a, is, lines, s₂.context,
    s₅.context, k, ?_, hl, g₂, hp, hb, g₅, ht, x₂, e₃ ▸ e₄ ▸ c₅, hlines, ?_⟩
  · have captures : s₅.context.draft.captures = s₅.draft.captures := rfl
    simpa [Context.closureCode, captures] using
      p₆.trans (p₇.trans (p₈.trans (p₉.trans p₁₀)))
  · have outer : s₅.context.enclosing = d.bare :: ds.map Draft.bare := congrArg _ he
    have left : s₆.draft = d ∧ s₆.enclosing = ds ∧ s₆.heap = s₅.heap := by
      rw [e₆, he]
      exact ⟨rfl, rfl, rfl⟩
    obtain ⟨rfl, rfl, heap⟩ := left
    rw [Context.leaveFunction?, outer, e₁₀, e₉]
    rw [heap] at e₈
    exact e₈

theorem runs_function (ih : ReadsStatements n) (h : Runs (function (n + 1)) s u s')
    (hs : Steady s) : ReadsFunction s s' := by
  rw [function] at h
  dsimp only at h
  rw [runs_enter] at h
  have steady : Steady (s.enter s.previous.lexeme) := ⟨hs.errors, hs.calm, hs.tokens, rfl⟩
  have context : (s.enter s.previous.lexeme).context =
      s.context.enterFunction s.previous.lexeme := rfl
  obtain ⟨_, s₁, h₁, h⟩ := runs_bind h
  obtain ⟨hl, p₁, e₁⟩ := runs_consume h₁ steady (by simp)
  obtain ⟨b, s₂, h₂, h⟩ := runs_bind h
  obtain ⟨rfl, rfl⟩ := runs_check h₂
  split at h
  next =>
    exact runs_functionBody ih hs hl p₁ .none (by simp [e₁, context, Context.addParameters?]) h
  next =>
    obtain ⟨_, s₃, h₃, h⟩ := runs_bind h
    have depth : 0 < s₁.context.draft.depth := by
      rw [e₁, context]
      exact Nat.one_pos
    obtain ⟨ts, x, xs, p₃, g₃, x₃⟩ := ih.parameters h₃ p₁.steady depth
    exact runs_functionBody ih hs hl (p₁.trans p₃) g₃ (by rw [← context, ← e₁]; exact x₃) h

theorem runs_functionDeclaration (ih : ReadsStatements n)
    (h : Runs (functionDeclaration (n + 1)) s u s') (hs : Steady s)
    (hk : s.previous.kind = .keyword .fun) :
    ReadsStatement .declaration [s.previous] s s' := by
  rw [functionDeclaration] at h
  obtain ⟨k, s₁, h₁, h⟩ := runs_bind h
  obtain ⟨hx, p₁, v₁⟩ := runs_newVariable h₁ hs
  obtain ⟨_, s₂, h₂, h⟩ := runs_bind h
  obtain ⟨p₂, e₂⟩ := runs_makeReadable h₂ p₁.steady
  have previous : s₂.previous = s.current := (p₁.trans p₂).previous
  obtain ⟨_, s₃, h₃, h⟩ := runs_bind h
  obtain ⟨l, ts, r, b, us, t, xs, a, is, lines, c₂, c₃, k', p₃, hl, g₃, hr, hb, g, ht, x₃, c, hlines,
    e₃⟩ := ih.function h₃ p₂.steady
  obtain ⟨p₄, e₄⟩ := runs_defineVariable h p₃.steady
  rw [previous, e₂] at x₃
  refine ⟨_, .function s.current.lexeme xs a, _, p₁.trans (p₂.trans (p₃.trans p₄)), ?_, ?_, ?_⟩
  · simpa using StmtPhrase.function hk hx hl g₃ hr hb g ht
  · rw [e₄]
    exact .function v₁ x₃ c hlines e₃
  · intro ho
    cases ho

theorem runs_expressionStatement (h : Runs (expressionStatement (n + 1)) s u s') (hs : Steady s) :
    ∃ ts e t is, Passes s (ts ++ [t]) (is ++ [.pop]) s' ∧ ExprPhrase .assignment ts e ∧
      t.kind = .punctuation .semicolon ∧ ExprCode s.context e is s'.context := by
  rw [expressionStatement] at h
  obtain ⟨_, s₁, h₁, h⟩ := runs_bind h
  obtain ⟨ts, e, is, p₁, g₁, c₁, -⟩ := (readsExpressions n).expression h₁ hs
  obtain ⟨_, s₂, h₂, h⟩ := runs_bind h
  obtain ⟨ht, p₂, e₂⟩ := runs_consume h₂ p₁.steady (by simp)
  obtain ⟨p₃, e₃⟩ := runs_emit h p₂.steady
  exact ⟨ts, e, _, is, by simpa using p₁.trans (p₂.trans p₃), g₁, ht, e₃ ▸ e₂ ▸ c₁⟩

theorem runs_returnStatement (h : Runs (returnStatement (n + 1)) s u s') (hs : Steady s)
    (hk : s.previous.kind = .keyword .return) :
    ReadsStatement .statement [s.previous] s s' := by
  rw [returnStatement] at h
  dsimp only at h
  rw [runs_get_bind] at h
  split at h
  next =>
    obtain ⟨_, s₁, h₁, -⟩ := runs_bind h
    exact absurd h₁ (not_runs_report hs.sound)
  next inside =>
    have inside : s.context.draft.kind = .function := by
      cases hd : s.draft.kind with
      | script => exact absurd hd inside
      | function => exact hd
    obtain ⟨b, s₁, h₁, h⟩ := runs_bind h
    obtain ⟨rfl, ht, p₁, e₁⟩ | ⟨rfl, -, rfl⟩ := runs_accept h₁ hs (by simp)
    · obtain ⟨p₂, e₂⟩ := runs_emitReturn h p₁.steady
      refine ⟨_, .return .nil, [.pushNil] ++ [.ret], p₁.trans p₂, .return hk (.absent ht), ?_, nofun⟩
      refine .return inside ?_
      rw [e₂, e₁]
      exact .nil
    · obtain ⟨_, s₂, h₂, h⟩ := runs_bind h
      obtain ⟨ts, e, is, p₂, g₂, c₂, -⟩ := (readsExpressions n).expression h₂ hs
      obtain ⟨_, s₃, h₃, h⟩ := runs_bind h
      obtain ⟨ht, p₃, e₃⟩ := runs_consume h₃ p₂.steady (by simp)
      obtain ⟨p₄, e₄⟩ := runs_emit h p₃.steady
      refine ⟨_, .return e, _, p₂.trans (p₃.trans p₄), ?_, .return inside (e₄ ▸ e₃ ▸ c₂), nofun⟩
      simpa using StmtPhrase.return hk (.present g₂ ht)

theorem declaresNothing_of_statement {ts : List Token} {a : Stmt}
    (h : StmtPhrase .statement ts a) : a.declaresNothing = true := by
  cases h <;> rfl

theorem ne_empty_of_statement {ts : List Token} {a : Stmt} (h : StmtPhrase .statement ts a) :
    a ≠ .empty := by
  rintro rfl
  cases h

theorem isOpen_ifElse {e : Expr} {a b : Stmt} (hb : b ≠ .empty) :
    (Stmt.ifElse e a b).isOpen = b.isOpen := by
  cases b <;> first | rfl | exact absurd rfl hb

theorem runs_ifStatement (ih : ReadsStatements n) (h : Runs (ifStatement (n + 1)) s u s')
    (hs : Steady s) (hk : s.previous.kind = .keyword .if) :
    ReadsStatement .statement [s.previous] s s' := by
  rw [ifStatement] at h
  dsimp only at h
  obtain ⟨_, s₁, h₁, h⟩ := runs_bind h
  obtain ⟨hl, p₁, e₁⟩ := runs_consume h₁ hs (by simp)
  obtain ⟨_, s₂, h₂, h⟩ := runs_bind h
  obtain ⟨ts, e, is, p₂, g₂, c₂, -⟩ := (readsExpressions n).expression h₂ p₁.steady
  obtain ⟨_, s₃, h₃, h⟩ := runs_bind h
  obtain ⟨hr, p₃, e₃⟩ := runs_consume h₃ p₂.steady (by simp)
  have condition := p₁.trans (p₂.trans p₃)
  rw [e₁, ← e₃] at c₂
  obtain ⟨otherwise, s₄, h₄, h⟩ := runs_bind h
  obtain ⟨rfl, p₄, e₄⟩ := runs_emitJump h₄ p₃.steady
  obtain ⟨_, s₅, h₅, h⟩ := runs_bind h
  obtain ⟨p₅, e₅⟩ := runs_emit h₅ p₄.steady
  obtain ⟨_, s₆, h₆, h⟩ := runs_bind h
  obtain ⟨us, a, js, p₆, g₆, c₆, b₆⟩ := ih.statement h₆ p₅.steady
  rw [e₅, e₄] at c₆
  obtain ⟨past, s₇, h₇, h⟩ := runs_bind h
  obtain ⟨rfl, p₇, e₇⟩ := runs_emitJump h₇ p₆.steady
  obtain ⟨_, s₈, h₈, h⟩ := runs_bind h
  have pending : Passes s₃ us ([] ++ .jumpIfFalse 0xFFFF :: (.pop :: js ++ [.jump 0xFFFF])) s₇ := by
    simpa using p₄.trans (p₅.trans (p₆.trans p₇))
  obtain ⟨fits, p₈, e₈⟩ := runs_landJump Chunk.isJump_jumpIfFalse h₈ pending rfl rfl
  have width₈ : width (.pop :: js ++ [.jump 0xFFFF]) = width js + 4 := by
    rw [width_append, width_pop_cons]
    rfl
  rw [width₈] at fits p₈
  obtain ⟨_, s₉, h₉, h⟩ := runs_bind h
  obtain ⟨p₉, e₉⟩ := runs_emit h₉ p₈.steady
  have context : s₉.context = s₆.context := by rw [e₉, e₈, e₇]
  have rest {s₁₀ : State} {vs : List Token} {ks : List Instruction} (p₁₀ : Passes s₉ vs ks s₁₀)
      (hr : Runs (landJump s₆.draft.chunk.code.size) s₁₀ u s') :
      Passes s ([s.current] ++ (ts ++ [s₂.current]) ++ (us ++ vs)) (is ++ choiceCode js ks) s' ∧
        width ks + 1 ≤ jumpLimit ∧ s'.context = s₁₀.context ∧ s'.current = s₁₀.current := by
    have pending : Passes s₃ (us ++ vs) ((.jumpIfFalse (width js + 4).toUInt16 :: .pop :: js) ++
        .jump 0xFFFF :: .pop :: ks) s₁₀ := by
      simpa using p₈.trans (p₉.trans p₁₀)
    have offset : s₃.draft.chunk.code.size +
        width (.jumpIfFalse (width js + 4).toUInt16 :: .pop :: js) = s₆.draft.chunk.code.size := by
      rw [((p₄.trans p₅).trans p₆).size]
      rfl
    obtain ⟨fits, p, e⟩ := runs_landJump Chunk.isJump_jump hr pending rfl offset
    rw [width_pop_cons] at fits p
    refine ⟨?_, fits, e, pending.current_eq p⟩
    simpa [choiceCode] using condition.trans p
  obtain ⟨b, s₁₀, h₁₀, h⟩ := runs_bind h
  obtain ⟨rfl, hk', p₁₀, e₁₀⟩ | ⟨rfl, hne, rfl⟩ := runs_accept h₁₀ p₉.steady (by simp)
  · simp only [if_true] at h
    obtain ⟨_, s₁₁, h₁₁, h⟩ := runs_bind h
    obtain ⟨vs, b, ks, p₁₁, g₁₁, c₁₁, b₁₁⟩ := ih.statement h₁₁ p₁₀.steady
    obtain ⟨p, fits', e', current⟩ := rest (p₁₀.trans p₁₁) h
    have closed : a.isOpen = false := by
      refine eq_false_of_ne_true fun ho => b₆ ho ?_
      rw [← p₇.current, ← pending.current_eq p₈, ← p₉.current]
      exact hk'
    refine ⟨_, .ifElse e a b, _, p, ?_, ?_, ?_⟩
    · simpa using StmtPhrase.ifElse hk hl g₂ hr g₆ closed hk' g₁₁
    · rw [e']
      refine .ifElse c₂ c₆ ?_ (declaresNothing_of_statement g₆) (declaresNothing_of_statement g₁₁)
        fits fits'
      rw [← context, ← e₁₀]
      exact c₁₁
    · rw [isOpen_ifElse (ne_empty_of_statement g₁₁), current]
      exact b₁₁
  · obtain ⟨p, fits', e', current⟩ := rest (.refl p₉.steady) h
    refine ⟨_, .ifElse e a .empty, _, p, ?_, ?_, fun _ => current ▸ hne⟩
    · simpa using StmtPhrase.ifThen hk hl g₂ hr g₆
    · rw [e', context]
      exact .ifElse c₂ c₆ .empty (declaresNothing_of_statement g₆) rfl fits fits'

section Loops

variable {ts : List Token} {s₁ : State} {l : Loop}

/-- How far the end of the body is from where it goes back to. -/
theorem Loop.distance {start : Nat} (hp : Passes s ts (l.pending ++ (l.stepCode ++ l.body)) s₁)
    (hstart : start = s.draft.chunk.code.size + l.step.elim 0 fun _ => width l.head + 3) :
    s₁.draft.chunk.code.size + 3 - start = l.back := by
  rw [hp.size, hstart, width_append, width_append, l.width_pending, l.width_stepCode]
  unfold Loop.back Loop.stepWidth
  cases l.step <;> simp only [Option.elim_none, Option.elim_some] <;> omega

/-- The way back at the end of a loop. -/
theorem runs_back {start : Nat} (hp : Passes s ts (l.pending ++ (l.stepCode ++ l.body)) s₁)
    (h : Runs (emitBackJump start) s₁ u s')
    (hstart : start = s.draft.chunk.code.size + l.step.elim 0 fun _ => width l.head + 3) :
    l.back ≤ jumpLimit ∧
      Passes s ts (l.pending ++ (l.stepCode ++ (l.body ++ [.loop l.back.toUInt16]))) s' ∧
      s'.context = s₁.context := by
  obtain ⟨fits, p, e⟩ := runs_emitBackJump h hp.steady
  rw [Loop.distance hp hstart] at fits p
  exact ⟨fits, by simpa using hp.trans p, e⟩

/-- What the way out of a loop jumps over. -/
theorem Loop.width_over (l : Loop) (d : UInt16) :
    width (.pop :: (l.stepCode ++ (l.body ++ [.loop d]))) = l.exit := by
  have back : width [.loop d] = 3 := rfl
  rw [width_pop_cons, width_append, width_append, l.width_stepCode, back, Loop.exit]
  omega

theorem Loop.passes_exit {is : List Instruction} (hc : l.condition = some is) {d : UInt16}
    (hp : Passes s ts (l.pending ++ (l.stepCode ++ (l.body ++ [.loop d]))) s₁) :
    Passes s ts (is ++ .jumpIfFalse 0xFFFF :: (.pop :: (l.stepCode ++ (l.body ++ [.loop d])))) s₁ := by
  simpa [Loop.pending, hc] using hp

/-- The way out of a loop with a condition. -/
theorem runs_exit {is : List Instruction} {s₂ : State} {u' : Unit} (hc : l.condition = some is)
    (hp : Passes s ts (l.pending ++ (l.stepCode ++ (l.body ++ [.loop l.back.toUInt16]))) s₁)
    (h : Runs (landJump (s.draft.chunk.code.size + width is)) s₁ u s₂)
    (h' : Runs (emit .pop) s₂ u' s') :
    l.exit ≤ jumpLimit ∧ Passes s ts l.code s' ∧ s'.context = s₁.context := by
  obtain ⟨fits, p, e⟩ :=
    runs_landJump Chunk.isJump_jumpIfFalse h (Loop.passes_exit hc hp) rfl rfl
  rw [Loop.width_over] at fits p
  obtain ⟨p', e'⟩ := runs_emit h' p.steady
  refine ⟨fits, ?_, e'.trans e⟩
  simpa [Loop.code, Loop.head, Loop.tail, hc] using p.trans p'

/-- The condition and the increment of a `for`, and its body, make a round of a loop. -/
theorem Loop.passes_round {us vs ws : List Token} {s₂ s₃ s₄ : State} {next : Nat}
    (p : Passes s₁ us l.pending s₂)
    (read : match l.step with
      | none => Passes s₂ vs [] s₃ ∧ next = s₁.draft.chunk.code.size
      | some is =>
        let again := s₂.draft.chunk.code.size + (width is + 7) - s₁.draft.chunk.code.size
        again ≤ jumpLimit ∧ next = s₂.draft.chunk.code.size + 3 ∧
          Passes s₂ vs (.jump (width is + 4).toUInt16 :: (is ++ [.pop, .loop again.toUInt16])) s₃)
    (p' : Passes s₃ ws l.body s₄) :
    (l.step.isSome → l.again ≤ jumpLimit) ∧
      Passes s₁ (us ++ (vs ++ ws)) (l.pending ++ (l.stepCode ++ l.body)) s₄ ∧
      next = s₁.draft.chunk.code.size + l.step.elim 0 fun _ => width l.head + 3 := by
  have size : s₂.draft.chunk.code.size = s₁.draft.chunk.code.size + width l.head := by
    rw [p.size, l.width_pending]
  cases hstep : l.step with
  | none =>
    rw [hstep] at read
    have code : l.stepCode = [] := by rw [Loop.stepCode, hstep, Option.elim_none]
    exact ⟨nofun, code ▸ p.trans (read.1.trans p'), read.2⟩
  | some is =>
    rw [hstep] at read
    have again : s₂.draft.chunk.code.size + (width is + 7) - s₁.draft.chunk.code.size = l.again := by
      rw [size, Loop.again, Loop.stepWidth, hstep, Option.elim_some]
      omega
    simp only [again] at read
    obtain ⟨fits, rfl, q⟩ := read
    have code : l.stepCode = .jump (width is + 4).toUInt16 ::
        (is ++ [.pop, .loop l.again.toUInt16]) := by
      rw [Loop.stepCode, hstep, Option.elim_some]
    exact ⟨fun _ => fits, code ▸ p.trans (q.trans p'), by rw [size, Option.elim_some, Nat.add_assoc]⟩

end Loops

theorem runs_whileStatement (ih : ReadsStatements n) (h : Runs (whileStatement (n + 1)) s u s')
    (hs : Steady s) (hk : s.previous.kind = .keyword .while) :
    ReadsStatement .statement [s.previous] s s' := by
  rw [whileStatement, runs_here_bind] at h
  obtain ⟨_, s₁, h₁, h⟩ := runs_bind h
  obtain ⟨hl, p₁, e₁⟩ := runs_consume h₁ hs (by simp)
  obtain ⟨_, s₂, h₂, h⟩ := runs_bind h
  obtain ⟨ts, e, is, p₂, g₂, c₂, -⟩ := (readsExpressions n).expression h₂ p₁.steady
  obtain ⟨_, s₃, h₃, h⟩ := runs_bind h
  obtain ⟨hr, p₃, e₃⟩ := runs_consume h₃ p₂.steady (by simp)
  rw [e₁, ← e₃] at c₂
  obtain ⟨exit, s₄, h₄, h⟩ := runs_bind h
  obtain ⟨rfl, p₄, e₄⟩ := runs_emitJump h₄ p₃.steady
  obtain ⟨_, s₅, h₅, h⟩ := runs_bind h
  obtain ⟨p₅, e₅⟩ := runs_emit h₅ p₄.steady
  obtain ⟨_, s₆, h₆, h⟩ := runs_bind h
  obtain ⟨us, a, js, p₆, g₆, c₆, b₆⟩ := ih.statement h₆ p₅.steady
  rw [e₅, e₄] at c₆
  have body : Passes s ([s.current] ++ (ts ++ ([s₂.current] ++ us)))
      (Loop.pending ⟨some is, none, js⟩ ++ ([] ++ js)) s₆ := by
    simpa [Loop.pending] using p₁.trans (p₂.trans (p₃.trans (p₄.trans (p₅.trans p₆))))
  obtain ⟨_, s₇, h₇, h⟩ := runs_bind h
  obtain ⟨fits, p₇, e₇⟩ := runs_back (l := ⟨some is, none, js⟩) body h₇ rfl
  obtain ⟨_, s₈, h₈, h⟩ := runs_bind h
  have offset : s₃.draft.chunk.code.size = s.draft.chunk.code.size + width is := by
    simpa using (p₁.trans (p₂.trans p₃)).size
  rw [offset] at h₈
  obtain ⟨fits', p₉, e₉⟩ := runs_exit rfl p₇ h₈ h
  refine ⟨_, .while e a, _, p₉, ?_, ?_, ?_⟩
  · simpa using StmtPhrase.while hk hl g₂ hr g₆
  · rw [e₉, e₇]
    exact .while c₂ c₆ (declaresNothing_of_statement g₆) ⟨fun _ => fits', nofun, fits⟩
  · intro ho
    rw [body.current_eq p₉]
    exact b₆ ho

theorem runs_forInitializer (ih : ReadsStatements n) (h : Runs (forInitializer (n + 1)) s u s')
    (hs : Steady s) :
    ∃ ts a is, Passes s ts is s' ∧ StmtPhrase .start ts a ∧ StmtCode s.context a is s'.context := by
  rw [forInitializer] at h
  obtain ⟨b, s₁, h₁, h⟩ := runs_bind h
  obtain ⟨rfl, ht, p₁, e₁⟩ | ⟨rfl, -, rfl⟩ := runs_accept h₁ hs (by simp)
  · obtain ⟨-, rfl, -⟩ := runs_pure.1 h
    exact ⟨_, .empty, _, p₁, .startEmpty ht, e₁ ▸ .empty⟩
  · simp only [Bool.false_eq_true, if_false] at h
    obtain ⟨b, s₁, h₁, h⟩ := runs_bind h
    obtain ⟨rfl, ht, p₁, e₁⟩ | ⟨rfl, -, rfl⟩ := runs_accept h₁ hs (by simp)
    · obtain ⟨x, ts, e, is, p₂, hx, g₂, c₂⟩ := ih.variableDeclaration h p₁.steady
      exact ⟨_, .var x.lexeme e, _, p₁.trans p₂, .startVar ht hx g₂, e₁ ▸ c₂⟩
    · obtain ⟨ts, e, t, is, p₂, g₂, ht, c₂⟩ := ih.expressionStatement h hs
      exact ⟨_, .expression e, _, p₂, .startExpression g₂ ht, .expression c₂⟩

theorem runs_forCondition {exit : Option Nat} (h : Runs (forCondition (n + 1)) s exit s')
    (hs : Steady s) : ReadsCondition exit s s' := by
  rw [forCondition] at h
  obtain ⟨b, s₁, h₁, h⟩ := runs_bind h
  obtain ⟨rfl, ht, p₁, e₁⟩ | ⟨rfl, -, rfl⟩ := runs_accept h₁ hs (by simp)
  · obtain ⟨rfl, rfl, -⟩ := runs_pure.1 h
    exact ⟨_, none, none, .absent ht, e₁ ▸ .absent, p₁, rfl⟩
  · obtain ⟨_, s₂, h₂, h⟩ := runs_bind h
    obtain ⟨ts, e, is, p₂, g₂, c₂, -⟩ := (readsExpressions n).expression h₂ hs
    obtain ⟨_, s₃, h₃, h⟩ := runs_bind h
    obtain ⟨ht, p₃, e₃⟩ := runs_consume h₃ p₂.steady (by simp)
    obtain ⟨_, s₄, h₄, h⟩ := runs_bind h
    obtain ⟨rfl, p₄, e₄⟩ := runs_emitJump h₄ p₃.steady
    obtain ⟨_, s₅, h₅, h⟩ := runs_bind h
    obtain ⟨p₅, e₅⟩ := runs_emit h₅ p₄.steady
    obtain ⟨rfl, rfl, -⟩ := runs_pure.1 h
    rw [← e₃, ← e₄, ← e₅] at c₂
    refine ⟨ts ++ [s₂.current], some e, some is, .present g₂ ht, .present c₂, ?_, ?_⟩
    · simpa using p₂.trans (p₃.trans (p₄.trans p₅))
    · simpa using (p₂.trans p₃).size

theorem runs_forIncrement {start next : Nat} (h : Runs (forIncrement (n + 1) start) s next s')
    (hs : Steady s) (hstart : start ≤ s.draft.chunk.code.size) :
    ReadsIncrement start next s s' := by
  rw [forIncrement] at h
  obtain ⟨b, s₁, h₁, h⟩ := runs_bind h
  obtain ⟨rfl, ht, p₁, e₁⟩ | ⟨rfl, -, rfl⟩ := runs_accept h₁ hs (by simp)
  · obtain ⟨rfl, rfl, -⟩ := runs_pure.1 h
    exact ⟨_, none, none, .absent ht, e₁ ▸ .absent, p₁, rfl⟩
  · simp only [Bool.false_eq_true, if_false] at h
    obtain ⟨_, s₁, h₁, h⟩ := runs_bind h
    obtain ⟨rfl, p₁, e₁⟩ := runs_emitJump h₁ hs
    rw [runs_here_bind] at h
    obtain ⟨_, s₂, h₂, h⟩ := runs_bind h
    obtain ⟨ts, e, is, p₂, g₂, c₂, -⟩ := (readsExpressions n).expression h₂ p₁.steady
    obtain ⟨_, s₃, h₃, h⟩ := runs_bind h
    obtain ⟨p₃, e₃⟩ := runs_emit h₃ p₂.steady
    obtain ⟨_, s₄, h₄, h⟩ := runs_bind h
    obtain ⟨ht, p₄, e₄⟩ := runs_consume h₄ p₃.steady (by simp)
    have pending := p₁.trans (p₂.trans (p₃.trans p₄))
    obtain ⟨_, s₅, h₅, h⟩ := runs_bind h
    obtain ⟨fits, p₅, e₅⟩ := runs_emitBackJump h₅ p₄.steady
    have size : s₄.draft.chunk.code.size = s.draft.chunk.code.size + (width is + 4) := by
      have one : width [.jump 0xFFFF] = 3 := rfl
      have two : width [.pop] = 1 := rfl
      rw [pending.size, width_append, width_append, width_append, one, two, width_nil]
      omega
    have distance : s₄.draft.chunk.code.size + 3 - start =
        s.draft.chunk.code.size + (width is + 7) - start := by
      rw [size]
      omega
    rw [distance] at fits p₅
    obtain ⟨_, s₆, h₆, h⟩ := runs_bind h
    have pending : Passes s (ts ++ [s₃.current]) ([] ++ .jump 0xFFFF :: (is ++
        [.pop, .loop (s.draft.chunk.code.size + (width is + 7) - start).toUInt16])) s₅ := by
      simpa using pending.trans p₅
    obtain ⟨-, p₆, e₆⟩ := runs_landJump Chunk.isJump_jump h₆ pending rfl rfl
    obtain ⟨rfl, rfl, -⟩ := runs_pure.1 h
    have past : width (is ++ [.pop, .loop (s.draft.chunk.code.size + (width is + 7) -
        start).toUInt16]) = width is + 4 := by
      rw [width_append]
      rfl
    rw [past] at p₆
    rw [e₁, ← e₃, ← e₄, ← e₅, ← e₆] at c₂
    exact ⟨_, some e, some is, .present g₂ ht, .present c₂, fits, p₁.size, p₆⟩

theorem runs_forStatement (ih : ReadsStatements n) (h : Runs (forStatement (n + 1)) s u s')
    (hs : Steady s) (hk : s.previous.kind = .keyword .for) :
    ReadsStatement .statement [s.previous] s s' := by
  rw [forStatement] at h
  dsimp only at h
  -- the last step depends on what the condition gives, so the errors are followed backwards
  obtain ⟨_, s₁, h₁, h₀⟩ := bind_eq_some.1 h.1
  obtain ⟨_, s₂, h₂, h₀⟩ := bind_eq_some.1 h₀
  obtain ⟨_, s₃, h₃, h₀⟩ := bind_eq_some.1 h₀
  obtain ⟨_, _, e, h₀⟩ := bind_eq_some.1 h₀
  cases e
  obtain ⟨exit, s₄, h₄, h₀⟩ := bind_eq_some.1 h₀
  obtain ⟨start, s₅, h₅, h₀⟩ := bind_eq_some.1 h₀
  obtain ⟨_, s₆, h₆, h₀⟩ := bind_eq_some.1 h₀
  obtain ⟨_, s₇, h₇, h₀⟩ := bind_eq_some.1 h₀
  have r₀ : Runs _ s₇ u s' := ⟨h₀, h.2⟩
  have r₇ : Runs _ s₆ _ s₇ := ⟨h₇, by cases exit <;> exact r₀.start⟩
  have r₆ : Runs _ s₅ _ s₆ := ⟨h₆, r₇.start⟩
  have r₅ : Runs _ s₄ _ s₅ := ⟨h₅, r₆.start⟩
  have r₄ : Runs _ s₃ _ s₄ := ⟨h₄, r₅.start⟩
  have r₃ : Runs _ s₂ _ s₃ := ⟨h₃, r₄.start⟩
  have r₂ : Runs _ s₁ _ s₂ := ⟨h₂, r₃.start⟩
  obtain ⟨p₁, e₁⟩ := runs_openScope ⟨h₁, r₂.start⟩ hs
  obtain ⟨hl, p₂, e₂⟩ := runs_consume r₂ p₁.steady (by simp)
  obtain ⟨ts, i, is, p₃, g₃, c₃⟩ := ih.forInitializer r₃ p₂.steady
  rw [e₂, e₁] at c₃
  obtain ⟨us, c, cs, g₄, c₄, p₄, hexit⟩ := ih.forCondition r₄ p₃.steady
  have le : s₃.draft.chunk.code.size ≤ s₄.draft.chunk.code.size := by
    rw [p₄.size]
    omega
  obtain ⟨vs, e, es, g₅, c₅, inc⟩ := ih.forIncrement r₅ p₄.steady le
  have steady : Steady s₅ := by
    cases es with
    | none => exact inc.1.steady
    | some _ => exact inc.2.2.steady
  obtain ⟨ws, a, js, p₆, g₆, c₆, b₆⟩ := ih.statement r₆ steady
  have hl₁ : s.current.kind = .punctuation .leftParen := p₁.current ▸ hl
  obtain ⟨fits₅, body, hstart⟩ := Loop.passes_round (l := ⟨cs, es, js⟩) p₄ inc p₆
  obtain ⟨l, hl⟩ : ∃ l : Loop, l = ⟨cs, es, js⟩ := ⟨_, rfl⟩
  rw [← hl] at fits₅ body hstart
  obtain ⟨fits₇, p₇, e₇⟩ := runs_back body r₇ hstart
  have rest {s₈ : State} (p₈ : Passes s₃ (us ++ (vs ++ ws)) l.code s₈) (e₈ : s₈.context = s₇.context)
      (fits₈ : l.condition.isSome → l.exit ≤ jumpLimit) (hr : Runs closeScope s₈ u s') :
      ReadsStatement .statement [s.previous] s s' := by
    obtain ⟨p₉, e₉⟩ := runs_closeScope hr p₈.steady
    rw [e₈, e₇] at p₉ e₉
    refine ⟨_, .for i c e a, _, p₁.trans (p₂.trans (p₃.trans (p₈.trans p₉))), ?_, ?_, ?_⟩
    · have current : s₁.current = s.current := p₁.current
      simpa [current] using StmtPhrase.for hk hl₁ g₃ g₄ g₅ g₆
    · rw [e₉]
      subst hl
      simpa using StmtCode.for c₃ c₄ c₅ c₆ (declaresNothing_of_statement g₆) ⟨fits₈, fits₅, fits₇⟩
    · intro ho
      rw [p₉.current, body.current_eq p₈]
      exact b₆ ho
  cases cs with
  | none =>
    subst hexit
    have code : l.code = l.pending ++ (l.stepCode ++ (l.body ++ [.loop l.back.toUInt16])) := by
      subst hl
      rfl
    exact rest (code ▸ p₇) rfl (fun hc => by rw [hl] at hc; cases hc) r₀
  | some cs' =>
    subst hexit
    obtain ⟨_, s₈, h₈, h₀⟩ := runs_bind r₀
    obtain ⟨_, s₉, h₉, h₀⟩ := runs_bind h₀
    obtain ⟨fits₈, p₈, e₈⟩ := runs_exit (l := l) (by rw [hl]) p₇ h₈ h₉
    exact rest p₈ e₈ (fun _ => fits₈) h₀

theorem runs_block (ih : ReadsStatements n) (h : Runs (block (n + 1)) s u s')
    (hs : Steady s) : ReadsBlock s s' := by
  rw [block] at h
  obtain ⟨b, s₁, h₁, h⟩ := runs_bind h
  obtain ⟨rfl, rfl⟩ := runs_check h₁
  obtain ⟨b, s₁, h₁, h⟩ := runs_bind h
  obtain ⟨-, rfl⟩ := runs_check h₁
  split at h
  next =>
    obtain ⟨ht, p, e⟩ := runs_consume h hs (by simp)
    exact ⟨[], s.current, .empty, [], p, .none, ht, e ▸ .empty⟩
  next =>
    obtain ⟨_, s₂, h₂, h⟩ := runs_bind h
    obtain ⟨ts, a, is, p₂, g₂, c₂, -⟩ := ih.declaration h₂ hs
    obtain ⟨us, t, b, js, p₃, g₃, ht, c₃⟩ := ih.block h p₂.steady
    refine ⟨ts ++ us, t, .seq a b, is ++ js, by simpa using p₂.trans p₃, .more g₂ g₃, ht, ?_⟩
    exact .seq c₂ c₃

theorem runs_statement (ih : ReadsStatements n) (h : Runs (statement (n + 1)) s u s')
    (hs : Steady s) : ReadsStatement .statement [] s s' := by
  rw [statement] at h
  obtain ⟨b, s₁, h₁, h⟩ := runs_bind h
  obtain ⟨rfl, hk, p₁, e₁⟩ | ⟨rfl, -, rfl⟩ := runs_accept h₁ hs (by simp)
  · simp only [if_true] at h
    obtain ⟨_, s₂, h₂, h⟩ := runs_bind h
    obtain ⟨ts, e, is, p₂, g₂, c₂, -⟩ := (readsExpressions n).expression h₂ p₁.steady
    obtain ⟨_, s₃, h₃, h⟩ := runs_bind h
    obtain ⟨ht, p₃, e₃⟩ := runs_consume h₃ p₂.steady (by simp)
    obtain ⟨p₄, e₄⟩ := runs_emit h p₃.steady
    rw [e₁, ← e₃, ← e₄] at c₂
    refine ⟨_, .print e, _, p₁.trans (p₂.trans (p₃.trans p₄)), ?_, .print c₂, nofun⟩
    simpa using StmtPhrase.print hk g₂ ht
  simp only [Bool.false_eq_true, if_false] at h
  obtain ⟨b, s₁, h₁, h⟩ := runs_bind h
  obtain ⟨rfl, hk, p₁, e₁⟩ | ⟨rfl, -, rfl⟩ := runs_accept h₁ hs (by simp)
  · exact p₁.keyword e₁ (ih.forStatement h p₁.steady (by rw [p₁.previous]; exact hk))
  simp only [Bool.false_eq_true, if_false] at h
  obtain ⟨b, s₁, h₁, h⟩ := runs_bind h
  obtain ⟨rfl, hk, p₁, e₁⟩ | ⟨rfl, -, rfl⟩ := runs_accept h₁ hs (by simp)
  · exact p₁.keyword e₁ (ih.ifStatement h p₁.steady (by rw [p₁.previous]; exact hk))
  simp only [Bool.false_eq_true, if_false] at h
  obtain ⟨b, s₁, h₁, h⟩ := runs_bind h
  obtain ⟨rfl, hk, p₁, e₁⟩ | ⟨rfl, -, rfl⟩ := runs_accept h₁ hs (by simp)
  · exact p₁.keyword e₁ (ih.returnStatement h p₁.steady (by rw [p₁.previous]; exact hk))
  simp only [Bool.false_eq_true, if_false] at h
  obtain ⟨b, s₁, h₁, h⟩ := runs_bind h
  obtain ⟨rfl, hk, p₁, e₁⟩ | ⟨rfl, -, rfl⟩ := runs_accept h₁ hs (by simp)
  · exact p₁.keyword e₁ (ih.whileStatement h p₁.steady (by rw [p₁.previous]; exact hk))
  simp only [Bool.false_eq_true, if_false] at h
  obtain ⟨b, s₁, h₁, h⟩ := runs_bind h
  obtain ⟨rfl, hk, p₁, e₁⟩ | ⟨rfl, -, rfl⟩ := runs_accept h₁ hs (by simp)
  · simp only [if_true] at h
    obtain ⟨_, s₂, h₂, h⟩ := runs_bind h
    obtain ⟨p₂, e₂⟩ := runs_openScope h₂ p₁.steady
    obtain ⟨_, s₃, h₃, h⟩ := runs_bind h
    obtain ⟨ts, t, a, is, p₃, g₃, ht, c₃⟩ := ih.block h₃ p₂.steady
    obtain ⟨p₄, e₄⟩ := runs_closeScope h p₃.steady
    rw [e₂, e₁] at c₃
    refine ⟨_, .block a, _, p₁.trans (p₂.trans (p₃.trans p₄)), ?_, e₄ ▸ .block c₃, nofun⟩
    simpa using StmtPhrase.block hk g₃ ht
  simp only [Bool.false_eq_true, if_false] at h
  obtain ⟨ts, e, t, is, p, g, ht, c⟩ := ih.expressionStatement h hs
  exact ⟨_, .expression e, _, p, .expression g ht, .expression c, nofun⟩

theorem runs_declaration (ih : ReadsStatements n) (h : Runs (declaration (n + 1)) s u s')
    (hs : Steady s) : ReadsStatement .declaration [] s s' := by
  rw [declaration] at h
  dsimp only at h
  -- there is nothing to recover from
  have rest {x : Compiler Unit} {s₁ : State} [Keeps x]
      (hx : ∀ {s₂}, Runs x s₁ () s₂ → ReadsStatement .declaration [] s s₂)
      (hr : Runs (do
        x
        if (← get).panicking then
          modify State.recover) s₁ u s') : ReadsStatement .declaration [] s s' := by
    obtain ⟨_, s₂, h₂, hr⟩ := runs_bind hr
    obtain ⟨ts, a, is, p₂, rest⟩ := hx h₂
    rw [runs_get_bind, if_neg (by simp [p₂.steady.calm])] at hr
    obtain ⟨-, rfl, -⟩ := runs_pure.1 hr
    exact ⟨ts, a, is, p₂, rest⟩
  obtain ⟨b, s₁, h₁, h⟩ := runs_bind h
  obtain ⟨rfl, hk, p₁, e₁⟩ | ⟨rfl, -, rfl⟩ := runs_accept h₁ hs (by simp)
  · refine rest (fun hx => ?_) h
    exact p₁.keyword e₁ (ih.functionDeclaration hx p₁.steady (by rw [p₁.previous]; exact hk))
  simp only [Bool.false_eq_true, if_false] at h
  obtain ⟨b, s₁, h₁, h⟩ := runs_bind h
  obtain ⟨rfl, hk, p₁, e₁⟩ | ⟨rfl, -, rfl⟩ := runs_accept h₁ hs (by simp)
  · refine rest (fun hx => ?_) h
    obtain ⟨x, ts, e, is, p₂, hx, g₂, c₂⟩ := ih.variableDeclaration hx p₁.steady
    exact ⟨_, .var x.lexeme e, _, p₁.trans p₂, .var hk hx g₂, e₁ ▸ c₂, nofun⟩
  · refine rest (fun hx => ?_) h
    obtain ⟨ts, a, is, p, g, c, b⟩ := ih.statement hx hs
    exact ⟨ts, a, is, p, .statement g, c, b⟩

theorem readsStatements (n : Nat) : ReadsStatements n := by
  induction n with
  | zero =>
    exact
      { declaration := fun h => absurd h not_runs_outOfFuel
        functionDeclaration := fun h => absurd h not_runs_outOfFuel
        variableDeclaration := fun h => absurd h not_runs_outOfFuel
        function := fun h => absurd h not_runs_outOfFuel
        parameters := fun h => absurd h not_runs_outOfFuel
        statement := fun h => absurd h not_runs_outOfFuel
        block := fun h => absurd h not_runs_outOfFuel
        expressionStatement := fun h => absurd h not_runs_outOfFuel
        returnStatement := fun h => absurd h not_runs_outOfFuel
        ifStatement := fun h => absurd h not_runs_outOfFuel
        whileStatement := fun h => absurd h not_runs_outOfFuel
        forStatement := fun h => absurd h not_runs_outOfFuel
        forInitializer := fun h => absurd h not_runs_outOfFuel
        forCondition := fun h => absurd h not_runs_outOfFuel
        forIncrement := fun h => absurd h not_runs_outOfFuel }
  | succ n ih =>
    exact
      { declaration := runs_declaration ih
        functionDeclaration := runs_functionDeclaration ih
        variableDeclaration := runs_variableDeclaration
        function := runs_function ih
        parameters := runs_parameters ih
        statement := runs_statement ih
        block := runs_block ih
        expressionStatement := runs_expressionStatement
        returnStatement := runs_returnStatement
        ifStatement := runs_ifStatement ih
        whileStatement := runs_whileStatement ih
        forStatement := runs_forStatement ih
        forInitializer := runs_forInitializer ih
        forCondition := runs_forCondition
        forIncrement := runs_forIncrement }

end Productions

end Compile
end StackScript
