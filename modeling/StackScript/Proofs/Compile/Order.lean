import StackScript.Proofs.Compile.Ending
import StackScript.Proofs.Syntax.Coverage

/-!
# StackScript.Proofs.Compile.Order

Errors are recorded in the order of the source.

* `State.Ordered`: what was recorded is in order and not behind the current token.
* `State.Settled`: unless the state is panicking, it is not behind the previous token either, so an
  error may be reported there. After recovery this need not be so, up to the next token read.
* `Carries`: computations that lead from one such condition to another.
* `errors_in_order`: the errors of a source, in order.
-/

namespace StackScript

section Places

/-- Not further on in the source, and on no later line. -/
instance : LE Position := ⟨fun p q => p.offset ≤ q.offset ∧ p.line ≤ q.line⟩

namespace Position

theorem le_refl (p : Position) : p ≤ p := ⟨Nat.le_refl _, Nat.le_refl _⟩

theorem le_trans {p q r : Position} (h : p ≤ q) (h' : q ≤ r) : p ≤ r :=
  ⟨Nat.le_trans h.1 h'.1, Nat.le_trans h.2 h'.2⟩

theorem le_advance (p : Position) (text : List Char) : p ≤ p.advance text := by
  constructor
  · rw [Lexical.offset_advance]
    exact Nat.le_add_right _ _
  · rw [line_advance]
    exact Nat.le_add_right _ _

end Position

/-- Tokens in the order of the source. -/
def InOrder (ts : List Token) : Prop := ts.Pairwise fun t u => t.position ≤ u.position

theorem Lexical.Covers.inOrder {cs : List Char} {p : Position} {ts : List Token}
    (h : Covers cs p ts) : (∀ t ∈ ts, p ≤ t.position) ∧ InOrder ts := by
  induction h with
  | eof =>
    refine ⟨fun t ht => ?_, List.pairwise_singleton ..⟩
    obtain rfl := List.mem_singleton.1 ht
    exact Position.le_advance _ _
  | @token gap lexeme _ p _ ts _ _ _ ih =>
    obtain ⟨least, later⟩ := ih
    have behind : ∀ t ∈ ts, p.advance gap ≤ t.position := fun t ht =>
      Position.le_trans (Position.le_advance _ lexeme) (Position.advance_append .. ▸ least t ht)
    refine ⟨fun t ht => ?_, List.pairwise_cons.2 ⟨behind, later⟩⟩
    obtain rfl | ht := List.mem_cons.1 ht
    · exact Position.le_advance _ _
    · exact Position.le_trans (Position.le_advance _ gap) (behind t ht)

theorem inOrder_scan (source : String) : InOrder (Lexical.scan source) :=
  (Lexical.covers_scanFrom source.toList .start).inOrder.2

end Places

namespace Compile

variable {tokens : List Token}

namespace State

/-- Errors at some tokens, in the order of the source, up to a place. -/
structure Recorded (tokens : List Token) (errors : Array Error) (p : Position) : Prop where
  known : ∀ e ∈ errors.toList, e.token ∈ tokens
  inOrder : errors.toList.Pairwise fun e f => e.token.position ≤ f.token.position
  upTo : ∀ e ∈ errors.toList, e.token.position ≤ p

structure Ordered (tokens : List Token) (s : State) : Prop where
  ending : s.Ending
  known : ∀ t ∈ s.current :: s.rest, t ∈ tokens
  inOrder : InOrder (s.current :: s.rest)
  recorded : Recorded tokens s.errors s.current.position

structure Settled (tokens : List Token) (s : State) : Prop extends s.Ordered tokens where
  previous : s.panicking = false → s.previous ∈ tokens ∧
    s.previous.position ≤ s.current.position ∧ Recorded tokens s.errors s.previous.position

/-- What the conditions above are about. -/
def window (s : State) : List Token × Token × Token × Bool × Array Error :=
  (s.rest, s.current, s.previous, s.panicking, s.errors)

section Recording

variable {s s' : State} {t : Token} {p q : Position}

theorem Recorded.mono {errors : Array Error} (h : Recorded tokens errors p) (hp : p ≤ q) :
    Recorded tokens errors q :=
  ⟨h.known, h.inOrder, fun e he => Position.le_trans (h.upTo e he) hp⟩

theorem Recorded.reportAt (h : Recorded tokens s.errors t.position) (ht : t ∈ tokens)
    (fault : Fault) : Recorded tokens (s.reportAt t fault).errors t.position := by
  unfold State.reportAt
  split
  · exact h
  · have all {P : Error → Prop} (old : ∀ e ∈ s.errors.toList, P e) (new : P ⟨t, fault⟩) :
        ∀ e ∈ s.errors.toList ++ [⟨t, fault⟩], P e := fun e he =>
      (List.mem_append.1 he).elim (old e) fun he => List.mem_singleton.1 he ▸ new
    constructor <;> rw [Array.toList_push]
    · exact all h.known ht
    · exact List.pairwise_append.2 ⟨h.inOrder, List.pairwise_singleton .., fun e he f hf =>
        List.mem_singleton.1 hf ▸ h.upTo e he⟩
    · exact all h.upTo t.position.le_refl

theorem panicking_reportAt (s : State) (t : Token) (fault : Fault) :
    (s.reportAt t fault).panicking = true := by
  unfold State.reportAt
  split
  next h => exact h
  next => rfl

theorem Ordered.congr (h : s.Ordered tokens) (e : s'.window = s.window) : s'.Ordered tokens := by
  simp only [window, Prod.mk.injEq] at e
  obtain ⟨rest, current, -, -, errors⟩ := e
  constructor
  · rw [State.Ending, current, rest]
    exact h.ending
  · rw [current, rest]
    exact h.known
  · rw [current, rest]
    exact h.inOrder
  · rw [current, errors]
    exact h.recorded

theorem Settled.congr (h : s.Settled tokens) (e : s'.window = s.window) : s'.Settled tokens := by
  refine ⟨h.toOrdered.congr e, ?_⟩
  simp only [window, Prod.mk.injEq] at e
  obtain ⟨-, current, previous, panicking, errors⟩ := e
  rw [previous, current, panicking, errors]
  exact h.previous

/-- A report at a token that lies in between settles every state. -/
theorem Ordered.reportAt (o : s.Ordered tokens) (ht : s.panicking = false → t ∈ tokens ∧
    t.position ≤ s.current.position ∧ Recorded tokens s.errors t.position) (fault : Fault) :
    (s.reportAt t fault).Settled tokens := by
  obtain ⟨current, rest⟩ := s.tokens_reportAt t fault
  refine ⟨⟨?_, ?_, ?_, ?_⟩, fun calm => ?_⟩
  · rw [State.Ending, current, rest]
    exact o.ending
  · rw [current, rest]
    exact o.known
  · rw [current, rest]
    exact o.inOrder
  · rw [current]
    cases h : s.panicking with
    | true =>
      rw [State.reportAt, if_pos h]
      exact o.recorded
    | false =>
      obtain ⟨known, le, recorded⟩ := ht h
      exact (recorded.reportAt known fault).mono le
  · rw [panicking_reportAt] at calm
    cases calm

end Recording

section Advancing

variable {s : State}

theorem take_ordered {ts : List Token} : ∀ {s : State}, EndsOnce ts → (∀ t ∈ ts, t ∈ tokens) →
    InOrder ts → (∀ t ∈ ts, Recorded tokens s.errors t.position) → (s.take ts).Ordered tokens := by
  induction ts with
  | nil => exact fun h => absurd rfl h.ne_nil
  | cons t ts ih =>
    intro s ends known order recorded
    unfold State.take
    split
    next fault hk =>
      obtain ⟨least, order⟩ := List.pairwise_cons.1 order
      have here := (recorded t List.mem_cons_self).reportAt (known t List.mem_cons_self)
        (.lexical fault)
      exact ih (ends.tail (by simp [hk])) (fun u hu => known u (List.mem_cons_of_mem t hu)) order
        fun u hu => here.mono (least u hu)
    next => exact ⟨ends, known, order, recorded t List.mem_cons_self⟩

theorem take_current {ts : List Token} : ∀ {s : State}, EndsOnce ts → (s.take ts).current ∈ ts := by
  induction ts with
  | nil => exact fun h => absurd rfl h.ne_nil
  | cons t ts ih =>
    intro s ends
    unfold State.take
    split
    next fault hk => exact List.mem_cons_of_mem t (ih (ends.tail (by simp [hk])))
    next => exact List.mem_cons_self

/-- Whoever is calm behind some tokens has found no fault among them. -/
theorem take_calm {ts : List Token} : ∀ {s : State}, (s.take ts).panicking = false →
    s.panicking = false ∧ (s.take ts).errors = s.errors ∧ (s.take ts).previous = s.previous := by
  induction ts with
  | nil => exact fun h => ⟨h, rfl, rfl⟩
  | cons t ts ih =>
    intro s h
    unfold State.take at h ⊢
    split at h
    next fault hk =>
      have calm := (ih h).1
      rw [panicking_reportAt] at calm
      cases calm
    next => exact ⟨h, rfl, rfl⟩

theorem Ordered.advance (o : s.Ordered tokens) : s.advance.Settled tokens := by
  obtain ⟨least, order⟩ := List.pairwise_cons.1 o.inOrder
  have known := o.known s.current List.mem_cons_self
  by_cases hk : s.current.kind = .eof
  · have rest : s.rest = [] := EndsOnce.eq_singleton o.ending hk
    have e : s.advance = { s with previous := s.current } := by
      rw [State.advance, rest]
      show ({ s with previous := s.current, rest := [] } : State) = _
      rw [← rest]
    rw [e]
    exact ⟨⟨o.ending, o.known, o.inOrder, o.recorded⟩, fun _ =>
      ⟨known, s.current.position.le_refl, o.recorded⟩⟩
  · have taken : s.advance.Ordered tokens :=
      take_ordered (EndsOnce.tail o.ending hk) (fun t ht => o.known t (List.mem_cons_of_mem _ ht))
        order fun t ht => o.recorded.mono (least t ht)
    refine ⟨taken, fun calm => ?_⟩
    obtain ⟨-, errors, previous⟩ : s.panicking = false ∧ s.advance.errors = s.errors ∧
      s.advance.previous = s.current := take_calm calm
    rw [previous, errors]
    exact ⟨known, least _ (take_current (EndsOnce.tail o.ending hk)), o.recorded⟩

theorem skip_ordered {n : Nat} : ∀ {s : State}, s.Ordered tokens →
    (State.skip n s).Ordered tokens := by
  induction n with
  | zero => exact id
  | succ n ih =>
    intro s o
    unfold State.skip
    split
    · exact o
    · exact ih o.advance.toOrdered

theorem Ordered.recover (o : s.Ordered tokens) : s.recover.Ordered tokens := by
  have calm : State.Ordered tokens { s with panicking := false } :=
    ⟨o.ending, o.known, o.inOrder, o.recorded⟩
  exact skip_ordered calm

end Advancing
end State

/-- A computation carries from one condition to another. -/
class Carries (P Q : State → Prop) {α : Type} (x : Compiler α) : Prop where
  carries : ∀ {s a s'}, P s → x s = some (a, s') → Q s'

/-- To where errors may be reported at the previous token, also from behind a recovery. -/
abbrev Enters (tokens : List Token) {α : Type} (x : Compiler α) : Prop :=
  Carries (State.Ordered tokens) (State.Settled tokens) x

abbrev Settles (tokens : List Token) {α : Type} (x : Compiler α) : Prop :=
  Carries (State.Settled tokens) (State.Settled tokens) x

section Rules

variable {α β : Type} {P Q R : State → Prop} {x y : Compiler α} {f : α → Compiler β}

instance (a : α) : Carries P P (pure a : Compiler α) where
  carries h e := by cases e; exact h

instance : Carries P P (get : Compiler State) where
  carries h e := by cases e; exact h

instance : Carries P Q (outOfFuel : Compiler α) where
  carries _ e := by cases e

theorem Carries.bind (hx : Carries P Q x) (hf : ∀ a, Carries Q R (f a)) :
    Carries P R (x >>= f) where
  carries h e := by
    obtain ⟨a, s₁, hx₁, hf₁⟩ := bind_eq_some.1 e
    exact (hf a).carries (hx.carries h hx₁) hf₁

instance [hx : Carries P P x] [hf : ∀ a, Carries P P (f a)] : Carries P P (x >>= f) := .bind hx hf

instance {p : Prop} [Decidable p] [Carries P Q x] [Carries P Q y] :
    Carries P Q (if p then x else y) := by
  split <;> infer_instance

/-- Reading a token settles what follows. -/
instance [hx : Enters tokens x] : Settles tokens x where
  carries h e := hx.carries h.toOrdered e

instance [hx : Enters tokens x] [hf : ∀ a, Settles tokens (f a)] : Enters tokens (x >>= f) :=
  .bind hx hf

/-- For continuations that are split before instances are looked for. -/
theorem Carries.andThen (hx : Carries P P x) (hf : ∀ a, Carries P P (f a)) :
    Carries P P (x >>= f) :=
  inferInstance

/-- A condition on the tokens around the current one and on what was recorded. -/
class Windowed (P : State → Prop) : Prop where
  congr : ∀ {s s'}, P s → s'.window = s.window → P s'

instance : Windowed (State.Ordered tokens) := ⟨State.Ordered.congr⟩

instance : Windowed (State.Settled tokens) := ⟨State.Settled.congr⟩

variable [Windowed P]

theorem Carries.modify {f : State → State} (hf : ∀ s : State, (f s).window = s.window) :
    Carries P P (modify f : Compiler Unit) where
  carries h e := by cases e; exact Windowed.congr h (hf _)

theorem Carries.modifyGet {f : State → α × State} (hf : ∀ s : State, (f s).2.window = s.window) :
    Carries P P (modifyGet f : Compiler α) where
  carries {s a s'} h e := by
    have e' : s' = (f s).2 := congrArg Prod.snd (Option.some.inj e).symm
    exact e' ▸ Windowed.congr h (hf s)

end Rules

section Reading

instance : Enters tokens advance where
  carries o e := by cases e; exact o.advance

instance (fault : Fault) : Enters tokens (reportCurrent fault) where
  carries {s _ _} o e := by
    cases e
    have here := o.known s.current List.mem_cons_self
    exact o.reportAt (fun _ => ⟨here, s.current.position.le_refl, o.recorded⟩) fault

instance (fault : Fault) : Settles tokens (report fault) where
  carries h e := by
    cases e
    exact h.toOrdered.reportAt h.previous fault

instance (k : TokenKind) : Carries P P (check k) := by unfold check; infer_instance

/-- A token that was accepted settles what follows. -/
theorem Carries.acceptThen {α : Type} {Q : State → Prop} {k : TokenKind} {x y : Compiler α}
    (hx : Carries (State.Settled tokens) Q x) (hy : Carries (State.Ordered tokens) Q y) :
    Carries (State.Ordered tokens) Q (accept k >>= fun b => if b = true then x else y) where
  carries {s a s'} o e := by
    obtain ⟨b, s₁, h₁, h₂⟩ := bind_eq_some.1 e
    rw [accept_apply] at h₁
    split at h₁ <;> cases h₁
    · exact hx.carries o.advance h₂
    · exact hy.carries o h₂

instance (k : TokenKind) : Settles tokens (accept k) := by unfold accept; infer_instance

instance (k : TokenKind) (what : Expectation) : Enters tokens (consume k what) := by
  unfold consume
  exact .acceptThen inferInstance inferInstance

instance : Carries (State.Ordered tokens) (State.Ordered tokens)
    (modify State.recover : Compiler Unit) where
  carries o e := by cases e; exact o.recover

end Reading

section Steps

variable {P : State → Prop} [Windowed P]

instance (i : Instruction) : Carries P P (emit i) := .modify fun _ => rfl

instance (is : List Instruction) : Carries P P (emitAll is) := by
  induction is with
  | nil => unfold emitAll; infer_instance
  | cons i is ih => unfold emitAll; infer_instance

instance : Carries P P emitReturn := by unfold emitReturn; infer_instance

instance : Carries P P here := by unfold here; infer_instance

instance (text : String) : Carries P P (intern text) := .modifyGet fun _ => rfl

instance (jump : UInt16 → Instruction) : Carries P P (emitJump jump) := by
  unfold emitJump; infer_instance

instance (name : Ref) : Carries P P (beginFunction name) := .modify fun _ => rfl

instance : Carries P P endFunction := by
  rw [endFunction_eq]
  have : Carries P P (modifyGet fun s : State => ((s.draft.finish, s.draft.captures),
      { s with
        draft := s.enclosing.headD (.new .script none)
        enclosing := s.enclosing.tail
        summaries := s.summaries.push (.of s.heap s.draft.finish) })) :=
    .modifyGet fun _ => rfl
  infer_instance

instance (o : Object) : Carries P P (allocate o) := .modifyGet fun _ => rfl

instance : Carries P P depth := by unfold depth; infer_instance

instance : Carries P P openScope := .modify fun _ => rfl

theorem State.window_dropLocals (ls : List Local) : ∀ {s : State},
    (s.dropLocals ls).window = s.window := by
  induction ls with
  | nil => exact rfl
  | cons l ls ih =>
    intro s
    unfold State.dropLocals
    split
    · exact ih
    · rfl

instance : Carries P P closeScope := .modify fun s => State.window_dropLocals s.draft.locals

instance : Carries P P makeReadable := by
  have : Carries P P (modify fun s : State => { s with draft := s.draft.makeReadable }) :=
    .modify fun _ => rfl
  unfold makeReadable; infer_instance

instance (global : UInt8) : Carries P P (defineVariable global) := by
  unfold defineVariable; infer_instance

end Steps

section Limits

instance (v : Value) : Settles tokens (addConstant v) := by
  have (chunk : Chunk) :
      Settles tokens (modify fun s : State => { s with draft := { s.draft with chunk } }) :=
    .modify fun _ => rfl
  unfold addConstant
  refine .andThen inferInstance fun s => ?_
  split <;> infer_instance

instance (v : Value) : Settles tokens (emitConstant v) := by unfold emitConstant; infer_instance

instance (offset : Nat) : Settles tokens (landJump offset) := by
  have (n : Nat) : Settles tokens (modify fun s : State => { s with
      draft := { s.draft with chunk := s.draft.chunk.setDistance offset n.toUInt16 } }) :=
    .modify fun _ => rfl
  unfold landJump; infer_instance

instance (start : Nat) : Settles tokens (emitBackJump start) := by
  unfold emitBackJump; infer_instance

instance (name : String) : Settles tokens (nameConstant name) := by
  unfold nameConstant; infer_instance

instance (name : String) : Settles tokens (addLocal name) := by
  have : Settles tokens (modify fun s : State => { s with
      draft := { s.draft with locals := ⟨name, none, false⟩ :: s.draft.locals } }) :=
    .modify fun _ => rfl
  unfold addLocal; infer_instance

instance : Settles tokens declareVariable := by unfold declareVariable; infer_instance

instance (what : Expectation) : Enters tokens (newVariable what) := by
  unfold newVariable; infer_instance

instance (fault : Option Fault) : Settles tokens (reportFault fault) := by
  unfold reportFault
  split <;> infer_instance

instance (name : String) : Settles tokens (resolve name) := by
  have (r : Resolution) : Settles tokens (modify fun s : State =>
      { s with draft := r.draft, enclosing := r.enclosing }) :=
    .modify fun _ => rfl
  unfold resolve
  refine .andThen inferInstance fun s => ?_
  split
  · infer_instance
  · split <;> infer_instance

instance : Settles tokens closeFunction := by
  unfold closeFunction
  dsimp only
  infer_instance

instance (exit : Option Nat) : Settles tokens (leaveLoop exit) := by
  unfold leaveLoop
  cases exit <;> infer_instance

end Limits

section Productions

set_option synthInstance.maxSize 5000

/-- The productions of expressions, for one recursion budget. -/
class OrderExpressions (tokens : List Token) (n : Nat) : Prop where
  expression : Enters tokens (expression n)
  operand : ∀ p, Enters tokens (operand n p)
  operators : ∀ p b, Settles tokens (operators n p b)
  leading : ∀ form b, Settles tokens (leading n form b)
  trailing : ∀ form b, Settles tokens (trailing n form b)
  items : ∀ close limit what, Settles tokens (items n close limit what)
  itemsFrom : ∀ limit count, Settles tokens (itemsFrom n limit count)

attribute [instance] OrderExpressions.expression OrderExpressions.operand OrderExpressions.operators
  OrderExpressions.leading OrderExpressions.trailing OrderExpressions.items
  OrderExpressions.itemsFrom

instance orderExpressions (tokens : List Token) (n : Nat) : OrderExpressions tokens n := by
  induction n with
  | zero =>
    constructor <;> intros <;>
      simp only [Compile.expression, Compile.operand, Compile.operators, Compile.leading,
        Compile.trailing, Compile.items, Compile.itemsFrom] <;> infer_instance
  | succ n ih =>
    constructor
    · unfold Compile.expression; infer_instance
    · intro p
      unfold Compile.operand
      refine .bind (Q := State.Settled tokens) inferInstance fun _ =>
        .andThen inferInstance fun s => ?_
      split <;> infer_instance
    · intro p b
      unfold Compile.operators
      refine .andThen inferInstance fun s => ?_
      split <;> infer_instance
    · intro form b
      unfold Compile.leading
      split <;> infer_instance
    · intro form b
      unfold Compile.trailing
      split <;> infer_instance
    · intro close limit what
      unfold Compile.items; infer_instance
    · intro limit count
      unfold Compile.itemsFrom
      dsimp only
      infer_instance

/-- The productions of statements, for one recursion budget. -/
class OrderStatements (tokens : List Token) (n : Nat) : Prop where
  declaration : Carries (State.Ordered tokens) (State.Ordered tokens) (declaration n)
  functionDeclaration : Settles tokens (functionDeclaration n)
  variableDeclaration : Settles tokens (variableDeclaration n)
  function : Settles tokens (function n)
  parameters : Settles tokens (parameters n)
  statement : Enters tokens (statement n)
  block : Enters tokens (block n)
  expressionStatement : Enters tokens (expressionStatement n)
  returnStatement : Settles tokens (returnStatement n)
  ifStatement : Settles tokens (ifStatement n)
  whileStatement : Settles tokens (whileStatement n)
  forStatement : Settles tokens (forStatement n)
  forInitializer : Settles tokens (forInitializer n)
  forCondition : Settles tokens (forCondition n)
  forIncrement : ∀ start, Settles tokens (forIncrement n start)

attribute [instance] OrderStatements.declaration OrderStatements.functionDeclaration
  OrderStatements.variableDeclaration OrderStatements.function OrderStatements.parameters
  OrderStatements.statement OrderStatements.block OrderStatements.expressionStatement
  OrderStatements.returnStatement OrderStatements.ifStatement OrderStatements.whileStatement
  OrderStatements.forStatement OrderStatements.forInitializer OrderStatements.forCondition
  OrderStatements.forIncrement

variable {n : Nat}

theorem statement_ordered [OrderStatements tokens n] : Enters tokens (statement (n + 1)) := by
  unfold Compile.statement
  exact .acceptThen inferInstance <| .acceptThen inferInstance <| .acceptThen inferInstance <|
    .acceptThen inferInstance <| .acceptThen inferInstance <|
    .acceptThen inferInstance inferInstance

theorem construct_ordered [OrderStatements tokens n] : Enters tokens (construct n) := by
  unfold construct
  exact .acceptThen inferInstance <| .acceptThen inferInstance inferInstance

/-- Behind a recovery no error may be reported at the previous token, but every declaration reads a
token first. -/
theorem declaration_ordered [OrderStatements tokens n] :
    Carries (State.Ordered tokens) (State.Ordered tokens) (declaration (n + 1)) := by
  have recovering : Carries (State.Ordered tokens) (State.Ordered tokens) (do
      if (← get).panicking then
        modify State.recover) := inferInstance
  rw [declaration_succ]
  exact .bind construct_ordered fun _ => ⟨fun h => recovering.carries h.toOrdered⟩

theorem block_ordered [OrderStatements tokens n] : Enters tokens (block (n + 1)) := by
  have more : Enters tokens (do declaration n; block n) :=
    .bind (Q := State.Ordered tokens) inferInstance inferInstance
  unfold Compile.block
  exact .bind (Q := State.Ordered tokens) inferInstance fun _ =>
    .bind (Q := State.Ordered tokens) inferInstance inferInstance

instance orderStatements (tokens : List Token) (n : Nat) : OrderStatements tokens n := by
  induction n with
  | zero =>
    constructor <;> intros <;>
      simp only [Compile.declaration, Compile.functionDeclaration, Compile.variableDeclaration,
        Compile.function, Compile.parameters, Compile.statement, Compile.block,
        Compile.expressionStatement, Compile.returnStatement, Compile.ifStatement,
        Compile.whileStatement, Compile.forStatement, Compile.forInitializer,
        Compile.forCondition, Compile.forIncrement] <;> infer_instance
  | succ n ih =>
    constructor
    · exact declaration_ordered
    · unfold Compile.functionDeclaration; infer_instance
    · unfold Compile.variableDeclaration; infer_instance
    · rw [function_succ]
      dsimp only
      infer_instance
    · have : Settles tokens (modify fun s : State =>
          { s with draft := { s.draft with arity := s.draft.arity + 1 } }) := .modify fun _ => rfl
      unfold Compile.parameters
      dsimp only
      infer_instance
    · exact statement_ordered
    · exact block_ordered
    · unfold Compile.expressionStatement; infer_instance
    · unfold Compile.returnStatement
      dsimp only
      infer_instance
    · unfold Compile.ifStatement
      dsimp only
      infer_instance
    · unfold Compile.whileStatement; infer_instance
    · rw [forStatement_succ]; infer_instance
    · unfold Compile.forInitializer; infer_instance
    · unfold Compile.forCondition; infer_instance
    · intro start
      rw [Compile.forIncrement]; infer_instance

instance orderDeclarations (tokens : List Token) (n : Nat) :
    Carries (State.Ordered tokens) (State.Ordered tokens) (declarations n) := by
  induction n with
  | zero => unfold declarations; infer_instance
  | succ n ih =>
    unfold declarations
    exact .acceptThen ⟨fun h e => by cases e; exact h.toOrdered⟩ inferInstance

end Productions

/-- The first token is read as if there were nothing in front of it. -/
theorem State.ordered_start (source : String) (heap : Heap) :
    (State.new (Lexical.scan source) heap).advance.Ordered (Lexical.scan source) := by
  have none (p : Position) : Recorded (Lexical.scan source) #[] p :=
    ⟨by simp, by simp, by simp⟩
  exact take_ordered (endsOnce_scan source) (fun _ => id) (inOrder_scan source) fun t _ =>
    none t.position

theorem script_ordered {source : String} {heap : Heap} {n : Nat} {f : Function} {s : State}
    (h : script n (.new (Lexical.scan source) heap) = some (f, s)) :
    s.Ordered (Lexical.scan source) := by
  rw [script, advance, modify_bind] at h
  obtain ⟨_, s₁, h₁, h⟩ := bind_eq_some.1 h
  obtain ⟨p, s₂, h₂, h⟩ := bind_eq_some.1 h
  cases h
  have read := (orderDeclarations _ n).carries (State.ordered_start source heap) h₁
  exact Carries.carries read h₂

/-- The errors of a source are about its tokens. Along the list, neither the offsets of the tokens
nor their lines ever go back. -/
theorem errors_in_order {source : String} {heap : Heap} {errors : List Error}
    (h : (compile source heap).result = .error errors) :
    (errors.Pairwise fun e f =>
      e.token.position.offset ≤ f.token.position.offset ∧ e.line ≤ f.line) ∧
    ∀ e ∈ errors, e.token ∈ Lexical.scan source := by
  obtain ⟨f, s, ends, e⟩ := compile_eq_ofState source heap
  have recorded := (script_ordered ends).recorded
  rw [e, Compilation.ofState] at h
  split at h <;> cases h
  exact ⟨recorded.inOrder, recorded.known⟩

/-- An error at the current token, then one at the same token, which is the previous one by now, and
one at a token that is passed over during recovery. -/
theorem errors_in_order_recovered :
    let source := "x class;\n) 1 @"
    let keyword : Token := ⟨.keyword .class, "class", ⟨2, 1⟩⟩
    let errors : List Error :=
      [⟨keyword, .expected .semicolonAfterExpression⟩, ⟨keyword, .expected .expression⟩,
        ⟨⟨.punctuation .rightParen, ")", ⟨9, 2⟩⟩, .expected .expression⟩,
        ⟨⟨.fault .unexpectedCharacter, "@", ⟨13, 2⟩⟩, .lexical .unexpectedCharacter⟩]
    (compile source .empty).result = .error errors ∧
      (errors.Pairwise fun e f =>
        e.token.position.offset ≤ f.token.position.offset ∧ e.line ≤ f.line) ∧
      ∀ e ∈ errors, e.token ∈ Lexical.scan source := by
  intro source keyword errors
  have fails : (compile source .empty).result = .error errors := by decide +kernel
  exact ⟨fails, errors_in_order fails⟩

end Compile
end StackScript
