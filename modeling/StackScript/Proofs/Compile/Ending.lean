import StackScript.Proofs.Compile.Script

/-!
# StackScript.Proofs.Compile.Ending

The recursion budget is enough. No production puts tokens back, and a declaration reads at least
one token unless the source is at its end, so the depth of the recursion is bounded by the tokens
to come, whatever errors are met.

* `Ends r`: a computation gives a result from every state with at most `r` tokens behind the
  current one.
* `Moves r`: it also reads a token, unless the source is at its end.
* `script_ends`, `compile_eq_ofState`: a script is compiled to the end.
-/

namespace StackScript
namespace Compile

/-- The tokens to come end where the source does. -/
def State.Ending (s : State) : Prop := EndsOnce (s.current :: s.rest)

class Ends {α : Type} (r : Nat) (x : Compiler α) : Prop where
  ends : ∀ {s}, s.Ending → s.rest.length ≤ r →
    ∃ a s', x s = some (a, s') ∧ s'.Ending ∧ s'.rest.length ≤ s.rest.length

class Moves {α : Type} (r : Nat) (x : Compiler α) : Prop where
  moves : ∀ {s}, s.Ending → s.rest.length ≤ r → s.current.kind ≠ .eof →
    ∃ a s', x s = some (a, s') ∧ s'.Ending ∧ s'.rest.length < s.rest.length

section Monad

variable {α β : Type} {r : Nat}

instance (a : α) : Ends r (pure a : Compiler α) where
  ends h _ := ⟨a, _, rfl, h, Nat.le_refl _⟩

instance : Ends r (get : Compiler State) where
  ends h _ := ⟨_, _, rfl, h, Nat.le_refl _⟩

instance Ends.bind {x : Compiler α} {f : α → Compiler β} [Ends r x] [∀ a, Ends r (f a)] :
    Ends r (x >>= f) where
  ends hs hr := by
    obtain ⟨a, s₁, h₁, e₁, le₁⟩ := Ends.ends (x := x) hs hr
    obtain ⟨b, s₂, h₂, e₂, le₂⟩ := Ends.ends (x := f a) e₁ (Nat.le_trans le₁ hr)
    exact ⟨b, s₂, bind_eq_some.2 ⟨a, s₁, h₁, h₂⟩, e₂, Nat.le_trans le₂ le₁⟩

instance {p : Prop} [Decidable p] {x y : Compiler α} [Ends r x] [Ends r y] :
    Ends r (if p then x else y) := by
  split <;> infer_instance

theorem Ends.result {x : Compiler α} [Ends r x] {s : State} (hs : s.Ending)
    (hr : s.rest.length ≤ r) : ∃ a s', x s = some (a, s') := by
  obtain ⟨a, s', h, -⟩ := Ends.ends (x := x) hs hr
  exact ⟨a, s', h⟩

/-- For continuations that are split before instances are looked for. -/
theorem Ends.andThen {x : Compiler α} {f : α → Compiler β} (hx : Ends r x)
    (hf : ∀ a, Ends r (f a)) : Ends r (x >>= f) :=
  inferInstance

/-- What the first part has read, the second one need not be able to read. -/
theorem Moves.andThen {x : Compiler α} {f : α → Compiler β} (hx : Moves r x)
    (hf : ∀ a, 0 < r → Ends (r - 1) (f a)) : Moves r (x >>= f) where
  moves hs hr hk := by
    obtain ⟨a, s₁, h₁, e₁, lt₁⟩ := Moves.moves (x := x) hs hr hk
    obtain ⟨b, s₂, h₂, e₂, le₂⟩ := (hf a (by omega)).ends e₁ (by omega)
    exact ⟨b, s₂, bind_eq_some.2 ⟨a, s₁, h₁, h₂⟩, e₂, by omega⟩

/-- A change that leaves the tokens alone. -/
theorem Ends.modify {f : State → State}
    (hf : ∀ s : State, (f s).current = s.current ∧ (f s).rest = s.rest) :
    Ends r (modify f : Compiler Unit) where
  ends {s} hs _ := by
    obtain ⟨current, rest⟩ := hf s
    refine ⟨(), f s, rfl, ?_, Nat.le_of_eq (by rw [rest])⟩
    rw [State.Ending, current, rest]
    exact hs

theorem Ends.modifyGet {f : State → α × State}
    (hf : ∀ s : State, (f s).2.current = s.current ∧ (f s).2.rest = s.rest) :
    Ends r (modifyGet f : Compiler α) where
  ends {s} hs _ := by
    obtain ⟨current, rest⟩ := hf s
    refine ⟨(f s).1, (f s).2, rfl, ?_, Nat.le_of_eq (by rw [rest])⟩
    rw [State.Ending, current, rest]
    exact hs

end Monad

section Reading

variable {α β : Type} {r : Nat} {s : State}

theorem State.tokens_reportAt (s : State) (t : Token) (fault : Fault) :
    (s.reportAt t fault).current = s.current ∧ (s.reportAt t fault).rest = s.rest := by
  unfold State.reportAt
  split <;> exact ⟨rfl, rfl⟩

theorem State.take_ending {ts : List Token} : ∀ {s : State}, EndsOnce ts →
    (s.take ts).Ending ∧ (s.take ts).rest.length < ts.length := by
  induction ts with
  | nil => exact fun h => absurd rfl h.ne_nil
  | cons t ts ih =>
    intro s h
    unfold State.take
    split
    next fault hk =>
      obtain ⟨ending, lt⟩ := ih (s := s.reportAt t (.lexical fault)) (h.tail (by simp [hk]))
      exact ⟨ending, Nat.lt_succ_of_lt lt⟩
    next => exact ⟨h, Nat.lt_succ_self _⟩

theorem State.advance_ending (hs : s.Ending) :
    s.advance.Ending ∧ s.advance.rest.length ≤ s.rest.length ∧
      (s.current.kind ≠ .eof → s.advance.rest.length < s.rest.length) := by
  by_cases hk : s.current.kind = .eof
  · have rest : s.rest = [] := EndsOnce.eq_singleton hs hk
    have e : s.advance = { s with previous := s.current, rest := [] } := by
      rw [State.advance, rest]
      rfl
    rw [e]
    exact ⟨rest ▸ hs, Nat.zero_le _, fun h => absurd hk h⟩
  · obtain ⟨ending, lt⟩ := State.take_ending (s := { s with previous := s.current })
      (EndsOnce.tail hs hk)
    exact ⟨ending, Nat.le_of_lt lt, fun _ => lt⟩

instance : Ends r advance where
  ends {s} hs _ := ⟨(), s.advance, rfl, (State.advance_ending hs).1, (State.advance_ending hs).2.1⟩

instance : Moves r advance where
  moves {s} hs _ hk :=
    ⟨(), s.advance, rfl, (State.advance_ending hs).1, (State.advance_ending hs).2.2 hk⟩

theorem State.skip_ending {n : Nat} : ∀ {s : State}, s.Ending →
    (State.skip n s).Ending ∧ (State.skip n s).rest.length ≤ s.rest.length := by
  induction n with
  | zero => exact fun hs => ⟨hs, Nat.le_refl _⟩
  | succ n ih =>
    intro s hs
    unfold State.skip
    split
    · exact ⟨hs, Nat.le_refl _⟩
    · obtain ⟨ending, le, -⟩ := State.advance_ending hs
      obtain ⟨ending', le'⟩ := ih ending
      exact ⟨ending', Nat.le_trans le' le⟩

instance : Ends r (modify State.recover : Compiler Unit) where
  ends {s} hs _ := by
    obtain ⟨ending, le⟩ := State.skip_ending (n := s.rest.length + 1)
      (s := { s with panicking := false }) hs
    exact ⟨(), s.recover, rfl, ending, le⟩

instance (fault : Fault) : Ends r (report fault) := .modify fun s => s.tokens_reportAt _ _

instance (fault : Fault) : Ends r (reportCurrent fault) := .modify fun s => s.tokens_reportAt _ _

instance (k : TokenKind) : Ends r (check k) := by unfold check; infer_instance

instance (k : TokenKind) : Ends r (accept k) := by unfold accept; infer_instance

instance (k : TokenKind) (what : Expectation) : Ends r (consume k what) := by
  unfold consume; infer_instance

theorem accept_apply (k : TokenKind) (s : State) :
    accept k s = if s.current.kind = k then some (true, s.advance) else some (false, s) := by
  have unfolded : accept k s = (if (s.current.kind == k) = true then (do advance; pure true)
    else pure false : Compiler Bool) s := rfl
  rw [unfolded]
  by_cases h : s.current.kind = k
  · rw [if_pos h, if_pos (by simpa using h)]
    rfl
  · rw [if_neg h, if_neg (by simpa using h)]
    rfl

/-- A token that was accepted has been read. -/
theorem Ends.acceptThen {k : TokenKind} {x y : Compiler α} (hk : k ≠ .eof)
    (hx : 0 < r → Ends (r - 1) x) (hy : Ends r y) :
    Ends r (accept k >>= fun b => if b = true then x else y) where
  ends {s} hs hr := by
    have h := accept_apply k s
    split at h
    next hit =>
      obtain ⟨ending, -, lt⟩ := State.advance_ending hs
      have lt := lt (hit ▸ hk)
      obtain ⟨a, s', h', e, le⟩ := (hx (by omega)).ends ending (by omega)
      exact ⟨a, s', bind_eq_some.2 ⟨_, _, h, h'⟩, e, by omega⟩
    next =>
      obtain ⟨a, s', h', e, le⟩ := hy.ends hs hr
      exact ⟨a, s', bind_eq_some.2 ⟨_, _, h, h'⟩, e, le⟩

theorem Moves.acceptThen {k : TokenKind} {x y : Compiler α} (hk : k ≠ .eof)
    (hx : 0 < r → Ends (r - 1) x) (hy : Moves r y) :
    Moves r (accept k >>= fun b => if b = true then x else y) where
  moves {s} hs hr current := by
    have h := accept_apply k s
    split at h
    next hit =>
      obtain ⟨ending, -, lt⟩ := State.advance_ending hs
      have lt := lt (hit ▸ hk)
      obtain ⟨a, s', h', e, le⟩ := (hx (by omega)).ends ending (by omega)
      exact ⟨a, s', bind_eq_some.2 ⟨_, _, h, h'⟩, e, by omega⟩
    next =>
      obtain ⟨a, s', h', e, lt⟩ := hy.moves hs hr current
      exact ⟨a, s', bind_eq_some.2 ⟨_, _, h, h'⟩, e, lt⟩

end Reading

section Steps

variable {r : Nat}

instance (i : Instruction) : Ends r (emit i) := .modify fun _ => ⟨rfl, rfl⟩

instance (is : List Instruction) : Ends r (emitAll is) := by
  induction is with
  | nil => unfold emitAll; infer_instance
  | cons i is ih => unfold emitAll; infer_instance

instance : Ends r emitReturn := by unfold emitReturn; infer_instance

instance : Ends r here := by unfold here; infer_instance

instance (text : String) : Ends r (intern text) := .modifyGet fun _ => ⟨rfl, rfl⟩

instance (v : Value) : Ends r (addConstant v) := by
  unfold addConstant
  refine .andThen inferInstance fun s => ?_
  split
  · have (chunk : Chunk) :
        Ends r (modify fun s : State => { s with draft := { s.draft with chunk } }) :=
      .modify fun _ => ⟨rfl, rfl⟩
    infer_instance
  · infer_instance

instance (v : Value) : Ends r (emitConstant v) := by unfold emitConstant; infer_instance

instance (jump : UInt16 → Instruction) : Ends r (emitJump jump) := by
  unfold emitJump; infer_instance

instance (offset : Nat) : Ends r (landJump offset) := by
  have (n : Nat) : Ends r (modify fun s : State => { s with
      draft := { s.draft with chunk := s.draft.chunk.setDistance offset n.toUInt16 } }) :=
    .modify fun _ => ⟨rfl, rfl⟩
  unfold landJump; infer_instance

instance (start : Nat) : Ends r (emitBackJump start) := by unfold emitBackJump; infer_instance

instance (name : Ref) : Ends r (beginFunction name) := .modify fun _ => ⟨rfl, rfl⟩

instance : Ends r endFunction := by
  unfold endFunction
  have : Ends r (modifyGet fun s : State =>
      let f := s.draft.finish
      let summaries := s.summaries.push (.of s.heap f)
      let (draft, enclosing) := match s.enclosing with
        | [] => (.new .script none, [])
        | d :: ds => (d, ds)
      ((f, s.draft.captures), { s with draft, enclosing, summaries })) := by
    refine .modifyGet fun s => ?_
    cases s.enclosing <;> exact ⟨rfl, rfl⟩
  infer_instance

instance (o : Object) : Ends r (allocate o) := .modifyGet fun _ => ⟨rfl, rfl⟩

instance : Ends r depth := by unfold depth; infer_instance

instance : Ends r openScope := .modify fun _ => ⟨rfl, rfl⟩

theorem State.tokens_dropLocals (ls : List Local) : ∀ {s : State},
    (s.dropLocals ls).current = s.current ∧ (s.dropLocals ls).rest = s.rest := by
  induction ls with
  | nil => exact ⟨rfl, rfl⟩
  | cons l ls ih =>
    intro s
    unfold State.dropLocals
    split
    · exact ih (s := s.emit _)
    · exact ⟨rfl, rfl⟩

instance : Ends r closeScope :=
  .modify fun s => State.tokens_dropLocals s.draft.locals
    (s := { s with draft := { s.draft with depth := s.draft.depth - 1 } })

instance (name : String) : Ends r (nameConstant name) := by unfold nameConstant; infer_instance

instance (name : String) : Ends r (addLocal name) := by
  have : Ends r (modify fun s : State => { s with
      draft := { s.draft with locals := ⟨name, none, false⟩ :: s.draft.locals } }) :=
    .modify fun _ => ⟨rfl, rfl⟩
  unfold addLocal; infer_instance

instance : Ends r declareVariable := by unfold declareVariable; infer_instance

instance (what : Expectation) : Ends r (newVariable what) := by unfold newVariable; infer_instance

instance : Ends r makeReadable := by
  have : Ends r (modify fun s : State => { s with draft := s.draft.makeReadable }) :=
    .modify fun _ => ⟨rfl, rfl⟩
  unfold makeReadable; infer_instance

instance (global : UInt8) : Ends r (defineVariable global) := by
  unfold defineVariable; infer_instance

instance (fault : Option Fault) : Ends r (reportFault fault) := by
  unfold reportFault
  split <;> infer_instance

instance (name : String) : Ends r (resolve name) := by
  unfold resolve
  refine .andThen inferInstance fun s => ?_
  split
  · infer_instance
  · split
    · have (x : Resolution) : Ends r (modify fun s : State =>
          { s with draft := x.draft, enclosing := x.enclosing }) :=
        .modify fun _ => ⟨rfl, rfl⟩
      infer_instance
    · infer_instance

end Steps

section Expressions

/-- How deep the productions of expressions recur. -/
structure EndExpressions (n : Nat) : Prop where
  expression : ∀ r, 16 * r + 2 ≤ n → Ends r (expression n) ∧ Moves r (expression n)
  operand : ∀ r p, 16 * r + 1 ≤ n → Ends r (operand n p) ∧ Moves r (operand n p)
  operators : ∀ r p b, 16 * r + 1 ≤ n → Ends r (operators n p b)
  leading : ∀ r form b, 16 * r + 5 ≤ n → Ends r (leading n form b)
  trailing : ∀ r form b, 16 * r + 5 ≤ n → Ends r (trailing n form b)
  items : ∀ r close limit what, 16 * r + 4 ≤ n → Ends r (items n close limit what)
  itemsFrom : ∀ r limit count, 16 * r + 3 ≤ n → Ends r (itemsFrom n limit count)

variable {n : Nat}

theorem operand_ends (ih : EndExpressions n) {r : Nat} {p : Precedence} (hn : 16 * r + 1 ≤ n + 1) :
    Ends r (operand (n + 1) p) ∧ Moves r (operand (n + 1) p) := by
  have moves : Moves r (operand (n + 1) p) := by
    rw [operand]
    refine Moves.andThen inferInstance fun _ hr => .andThen inferInstance fun s => ?_
    split
    next => infer_instance
    next form _ =>
      have (b : Bool) := ih.leading (r - 1) form b (by omega)
      have (b : Bool) := ih.operators (r - 1) p b (by omega)
      dsimp only
      infer_instance
  refine ⟨⟨fun {s} hs hr => ?_⟩, moves⟩
  by_cases hk : s.current.kind = .eof
  · -- the end of the source begins no expression
    obtain ⟨ending, le, -⟩ := State.advance_ending hs
    have e : operand (n + 1) p s = report (.expected .expression) s.advance := by
      rw [operand, advance, modify_bind, get_bind, previous_advance, hk]
      rfl
    obtain ⟨a, s', h, e', le'⟩ := Ends.ends (r := r) (x := report (.expected .expression)) ending
      (Nat.le_trans le hr)
    exact ⟨a, s', e.trans h, e', Nat.le_trans le' le⟩
  · obtain ⟨a, s', h, e, lt⟩ := moves.moves hs hr hk
    exact ⟨a, s', h, e, Nat.le_of_lt lt⟩

theorem operators_ends (ih : EndExpressions n) {r : Nat} {p : Precedence} {b : Bool}
    (hn : 16 * r + 1 ≤ n + 1) : Ends r (operators (n + 1) p b) where
  ends {s} hs hr := by
    rw [operators, get_bind]
    cases hf : trailing? s.current.kind with
    | none => exact ⟨(), s, rfl, hs, Nat.le_refl _⟩
    | some form =>
      have hk : s.current.kind ≠ .eof := by
        intro hk
        rw [hk] at hf
        cases hf
      dsimp only
      split
      next =>
        have moves : Moves r (do
            advance
            trailing n form b
            operators n p b) :=
          Moves.andThen inferInstance fun _ hr => by
            have := ih.trailing (r - 1) form b (by omega)
            have := ih.operators (r - 1) p b (by omega)
            infer_instance
        obtain ⟨a, s', h, e, lt⟩ := moves.moves hs hr hk
        exact ⟨a, s', h, e, Nat.le_of_lt lt⟩
      next => exact ⟨(), s, rfl, hs, Nat.le_refl _⟩

theorem leading_ends (ih : EndExpressions n) {r : Nat} {form : Leading} {b : Bool}
    (hn : 16 * r + 5 ≤ n + 1) : Ends r (leading (n + 1) form b) := by
  have := (ih.expression r (by omega)).1
  have (p : Precedence) := (ih.operand r p (by omega)).1
  have (close : TokenKind) (limit : Limit) (what : Expectation) :=
    ih.items r close limit what (by omega)
  unfold leading
  split <;> infer_instance

theorem trailing_ends (ih : EndExpressions n) {r : Nat} {form : Trailing} {b : Bool}
    (hn : 16 * r + 5 ≤ n + 1) : Ends r (trailing (n + 1) form b) := by
  have := (ih.expression r (by omega)).1
  have (p : Precedence) := (ih.operand r p (by omega)).1
  have (close : TokenKind) (limit : Limit) (what : Expectation) :=
    ih.items r close limit what (by omega)
  unfold trailing
  split <;> infer_instance

theorem itemsFrom_ends (ih : EndExpressions n) {r : Nat} {limit : Limit} {count : Nat}
    (hn : 16 * r + 3 ≤ n + 1) : Ends r (itemsFrom (n + 1) limit count) := by
  have := (ih.expression r (by omega)).1
  have rest : Ends r (accept (.punctuation .comma) >>= fun b =>
      if b = true then itemsFrom n limit (count + 1) else pure (count + 1)) :=
    .acceptThen (by simp) (fun hr => ih.itemsFrom (r - 1) limit _ (by omega)) inferInstance
  unfold itemsFrom
  dsimp only
  infer_instance

theorem endExpressions (n : Nat) : EndExpressions n := by
  induction n with
  | zero => constructor <;> intros <;> omega
  | succ n ih =>
    constructor
    · intro r hn
      unfold Compile.expression
      exact ih.operand r _ (by omega)
    · exact fun r p => operand_ends ih
    · exact fun r p b => operators_ends ih
    · exact fun r form b => leading_ends ih
    · exact fun r form b => trailing_ends ih
    · intro r close limit what hn
      have := ih.itemsFrom r limit 0 (by omega)
      unfold Compile.items
      infer_instance
    · exact fun r limit count => itemsFrom_ends ih

end Expressions

section Statements

set_option synthInstance.maxSize 5000

/-- How deep the productions of statements recur. -/
structure EndStatements (n : Nat) : Prop where
  declaration : ∀ r, 16 * r + 5 ≤ n → Ends r (declaration n) ∧ Moves r (declaration n)
  functionDeclaration : ∀ r, 16 * r + 8 ≤ n → Ends r (functionDeclaration n)
  variableDeclaration : ∀ r, 16 * r + 3 ≤ n → Ends r (variableDeclaration n)
  function : ∀ r, 16 * r + 7 ≤ n → Ends r (function n)
  parameters : ∀ r, 16 * r + 1 ≤ n → Ends r (parameters n)
  statement : ∀ r, 16 * r + 4 ≤ n → Ends r (statement n) ∧ Moves r (statement n)
  block : ∀ r, 16 * r + 6 ≤ n → Ends r (block n)
  expressionStatement : ∀ r, 16 * r + 3 ≤ n →
    Ends r (expressionStatement n) ∧ Moves r (expressionStatement n)
  returnStatement : ∀ r, 16 * r + 3 ≤ n → Ends r (returnStatement n)
  ifStatement : ∀ r, 16 * r + 5 ≤ n → Ends r (ifStatement n)
  whileStatement : ∀ r, 16 * r + 5 ≤ n → Ends r (whileStatement n)
  forStatement : ∀ r, 16 * r + 5 ≤ n → Ends r (forStatement n)
  forInitializer : ∀ r, 16 * r + 4 ≤ n → Ends r (forInitializer n)
  forCondition : ∀ r, 16 * r + 3 ≤ n → Ends r (forCondition n)
  forIncrement : ∀ r start, 16 * r + 3 ≤ n → Ends r (forIncrement n start)

variable {n r : Nat}

theorem expression_ends (hn : 16 * r + 2 ≤ n) : Ends r (expression n) :=
  ((endExpressions n).expression r hn).1

theorem statement_ends (ih : EndStatements n) (hn : 16 * r + 4 ≤ n + 1) :
    Ends r (statement (n + 1)) ∧ Moves r (statement (n + 1)) := by
  have printing (hr : 0 < r) : Ends (r - 1) (do
      expression n
      consume (.punctuation .semicolon) .semicolonAfterValue
      emit .print) :=
    have := expression_ends (n := n) (r := r - 1) (by omega)
    inferInstance
  have bracing (hr : 0 < r) : Ends (r - 1) (do
      openScope
      block n
      closeScope) :=
    have := ih.block (r - 1) (by omega)
    inferInstance
  obtain ⟨last, lastMoves⟩ := ih.expressionStatement r (by omega)
  unfold Compile.statement
  constructor
  · exact .acceptThen (by simp) printing <|
      .acceptThen (by simp) (fun _ => ih.forStatement (r - 1) (by omega)) <|
      .acceptThen (by simp) (fun _ => ih.ifStatement (r - 1) (by omega)) <|
      .acceptThen (by simp) (fun _ => ih.returnStatement (r - 1) (by omega)) <|
      .acceptThen (by simp) (fun _ => ih.whileStatement (r - 1) (by omega)) <|
      .acceptThen (by simp) bracing last
  · exact .acceptThen (by simp) printing <|
      .acceptThen (by simp) (fun _ => ih.forStatement (r - 1) (by omega)) <|
      .acceptThen (by simp) (fun _ => ih.ifStatement (r - 1) (by omega)) <|
      .acceptThen (by simp) (fun _ => ih.returnStatement (r - 1) (by omega)) <|
      .acceptThen (by simp) (fun _ => ih.whileStatement (r - 1) (by omega)) <|
      .acceptThen (by simp) bracing lastMoves

theorem declaration_ends (ih : EndStatements n) (hn : 16 * r + 5 ≤ n + 1) :
    Ends r (declaration (n + 1)) ∧ Moves r (declaration (n + 1)) := by
  have recovering {r' : Nat} : Ends r' (do
      if (← get).panicking then
        modify State.recover) := inferInstance
  have functions (hr : 0 < r) : Ends (r - 1) (do
      functionDeclaration n
      if (← get).panicking then
        modify State.recover) :=
    .andThen (ih.functionDeclaration (r - 1) (by omega)) fun _ => recovering
  have values (hr : 0 < r) : Ends (r - 1) (do
      variableDeclaration n
      if (← get).panicking then
        modify State.recover) :=
    .andThen (ih.variableDeclaration (r - 1) (by omega)) fun _ => recovering
  obtain ⟨last, lastMoves⟩ := ih.statement r (by omega)
  unfold Compile.declaration
  dsimp only
  constructor
  · exact .acceptThen (by simp) functions <| .acceptThen (by simp) values <|
      .andThen last fun _ => recovering
  · exact .acceptThen (by simp) functions <| .acceptThen (by simp) values <|
      .andThen lastMoves fun _ _ => recovering

theorem block_ends (ih : EndStatements n) (hn : 16 * r + 6 ≤ n + 1) : Ends r (block (n + 1)) where
  ends {s} hs hr := by
    have unfolded : block (n + 1) s = (do
        if (s.current.kind == .punctuation .rightBrace) || (s.current.kind == .eof) then
          consume (.punctuation .rightBrace) .braceAfterBlock
        else
          declaration n
          block n : Compiler Unit) s := by
      rw [block]
      rfl
    rw [unfolded]
    split
    next => exact Ends.ends hs hr
    next more =>
      have hk : s.current.kind ≠ .eof := by
        intro hk
        simp [hk] at more
      have moves : Moves r (do declaration n; block n) :=
        .andThen (ih.declaration r (by omega)).2 fun _ _ => ih.block (r - 1) (by omega)
      obtain ⟨a, s', h, e, lt⟩ := moves.moves hs hr hk
      exact ⟨a, s', h, e, Nat.le_of_lt lt⟩

theorem parameters_ends (ih : EndStatements n) (hn : 16 * r + 1 ≤ n + 1) :
    Ends r (parameters (n + 1)) := by
  have count : Ends r (modify fun s : State =>
      { s with draft := { s.draft with arity := s.draft.arity + 1 } }) :=
    .modify fun _ => ⟨rfl, rfl⟩
  have rest : Ends r (accept (.punctuation .comma) >>= fun b =>
      if b = true then parameters n else pure ()) :=
    .acceptThen (by simp) (fun hr => ih.parameters (r - 1) (by omega)) inferInstance
  unfold Compile.parameters
  dsimp only
  infer_instance

theorem function_ends (ih : EndStatements n) (hn : 16 * r + 7 ≤ n + 1) :
    Ends r (function (n + 1)) := by
  have := ih.parameters r (by omega)
  have := ih.block r (by omega)
  unfold Compile.function
  dsimp only
  refine .andThen inferInstance fun _ => .andThen inferInstance fun _ =>
    .andThen inferInstance fun _ => .andThen inferInstance fun _ =>
    .andThen inferInstance fun _ => .andThen inferInstance fun _ => ?_
  split <;> infer_instance

theorem forStatement_ends (ih : EndStatements n) (hn : 16 * r + 5 ≤ n + 1) :
    Ends r (forStatement (n + 1)) := by
  have := ih.forInitializer r (by omega)
  have := ih.forCondition r (by omega)
  have (start : Nat) := ih.forIncrement r start (by omega)
  have := (ih.statement r (by omega)).1
  unfold Compile.forStatement
  refine .andThen inferInstance fun _ => .andThen inferInstance fun _ =>
    .andThen inferInstance fun _ => .andThen inferInstance fun _ =>
    .andThen inferInstance fun exit => ?_
  cases exit <;> infer_instance

theorem endStatements (n : Nat) : EndStatements n := by
  induction n with
  | zero => constructor <;> intros <;> omega
  | succ n ih =>
    constructor
    · exact fun r => declaration_ends ih
    · intro r hn
      have := ih.function r (by omega)
      unfold Compile.functionDeclaration
      infer_instance
    · intro r hn
      have := expression_ends (n := n) (r := r) (by omega)
      unfold Compile.variableDeclaration
      dsimp only
      infer_instance
    · exact fun r => function_ends ih
    · exact fun r => parameters_ends ih
    · exact fun r => statement_ends ih
    · exact fun r => block_ends ih
    · intro r hn
      obtain ⟨ends, moves⟩ := (endExpressions n).expression r (by omega)
      unfold Compile.expressionStatement
      exact ⟨inferInstance, moves.andThen fun _ _ => inferInstance⟩
    · intro r hn
      have := expression_ends (n := n) (r := r) (by omega)
      unfold Compile.returnStatement
      dsimp only
      infer_instance
    · intro r hn
      have := expression_ends (n := n) (r := r) (by omega)
      have := (ih.statement r (by omega)).1
      unfold Compile.ifStatement
      dsimp only
      infer_instance
    · intro r hn
      have := expression_ends (n := n) (r := r) (by omega)
      have := (ih.statement r (by omega)).1
      unfold Compile.whileStatement
      infer_instance
    · exact fun r => forStatement_ends ih
    · intro r hn
      have := ih.variableDeclaration r (by omega)
      have := (ih.expressionStatement r (by omega)).1
      unfold Compile.forInitializer
      infer_instance
    · intro r hn
      have := expression_ends (n := n) (r := r) (by omega)
      unfold Compile.forCondition
      infer_instance
    · intro r start hn
      have := expression_ends (n := n) (r := r) (by omega)
      rw [Compile.forIncrement]
      infer_instance

end Statements

/-- A declaration reads a token, so the rest of a script is shorter than the script. -/
theorem declarations_ends (n : Nat) : ∀ r, 16 * r + 6 ≤ n → Ends r (declarations n) := by
  induction n with
  | zero => exact fun r hn => absurd hn (by omega)
  | succ n ih =>
    refine fun r hn => ⟨fun {s} hs hr => ?_⟩
    have h := accept_apply .eof s
    have unfolded : declarations (n + 1) = (do
        unless ← accept .eof do
          declaration n
          declarations n) := by
      rw [declarations]
    rw [unfolded]
    split at h
    next =>
      obtain ⟨ending, le, -⟩ := State.advance_ending hs
      exact ⟨(), s.advance, bind_eq_some.2 ⟨_, _, h, rfl⟩, ending, le⟩
    next hk =>
      have moves : Moves r (do declaration n; declarations n) :=
        .andThen ((endStatements n).declaration r (by omega)).2 fun _ _ => ih (r - 1) (by omega)
      obtain ⟨a, s', h', e, lt⟩ := moves.moves hs hr hk
      exact ⟨a, s', bind_eq_some.2 ⟨_, _, h, h'⟩, e, Nat.le_of_lt lt⟩

/-- A script is compiled to its end within the budget for its tokens. -/
theorem script_ends (source : String) (heap : Heap) :
    ∃ f s, script (budget (Lexical.scan source)) (.new (Lexical.scan source) heap) = some (f, s) := by
  obtain ⟨ending, lt⟩ := State.take_ending (endsOnce_scan source)
    (s := { State.new (Lexical.scan source) heap with
      previous := (State.new (Lexical.scan source) heap).current })
  have := declarations_ends (budget (Lexical.scan source)) (Lexical.scan source).length
    (by unfold budget; omega)
  rw [script, advance, modify_bind]
  exact Ends.result ending (Nat.le_of_lt lt)

/-- What the compiler gives is what it makes of the state a script ends in. -/
theorem compile_eq_ofState (source : String) (heap : Heap) :
    ∃ f s,
      script (budget (Lexical.scan source)) (.new (Lexical.scan source) heap) = some (f, s) ∧
      compile source heap = .ofState f s := by
  obtain ⟨f, s, ends⟩ := script_ends source heap
  exact ⟨f, s, ends, by simp only [compile, compileWithin, ends, Option.map_some, Option.getD_some]⟩

theorem Compilation.size_ofState (f : Function) (s : State) :
    s.heap.size ≤ (Compilation.ofState f s).heap.size := by
  unfold Compilation.ofState
  split
  · exact (s.heap.extends_allocate _).size_le
  · exact Nat.le_refl _

end Compile
end StackScript
