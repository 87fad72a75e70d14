import StackScript.Compile.Grammar
import StackScript.Proofs.Store.Heap

/-!
# StackScript.Proofs.Compile.Faultless

Computations of the compiler that end without a recorded error.

* `Keeps`: errors are never taken back, whoever panics has recorded one, and the heap only gains
  strings and functions. All productions keep errors, so a run without errors at the end had none
  on the way (`Runs`).
* `runs_bind`: such a run of a sequence is a run of each part.
* `construct`, `closeFunction`, `leaveLoop`: parts of the productions.
-/

namespace StackScript
namespace Compile

/-- A state that is panicking has recorded an error. -/
def State.Sound (s : State) : Prop := s.panicking = true → s.errors ≠ #[]

/-- Nothing is left to read but the end of the source. -/
def State.AtEnd (s : State) : Prop := s.rest = [] ∧ s.current.kind = .eof

/-- A state that may come after another one. -/
structure State.Later (s s' : State) : Prop where
  errors : s'.errors = #[] → s.errors = #[]
  sound : s.Sound → s'.Sound
  heap : s.heap.Gains s'.heap
  ended : s.AtEnd → s'.AtEnd

namespace State

theorem Later.refl (s : State) : s.Later s := ⟨id, id, .refl _, id⟩

theorem Later.trans {s s₁ s₂ : State} (h : s.Later s₁) (h' : s₁.Later s₂) : s.Later s₂ :=
  ⟨h.errors ∘ h'.errors, h'.sound ∘ h.sound, h.heap.trans h'.heap, h'.ended ∘ h.ended⟩

end State

class Keeps {α : Type} (x : Compiler α) : Prop where
  later : ∀ {s a s'}, x s = some (a, s') → s.Later s'

/-- A computation ends without a recorded error. -/
def Runs {α : Type} (x : Compiler α) (s : State) (a : α) (s' : State) : Prop :=
  x s = some (a, s') ∧ s'.errors = #[]

section Monad

variable {α β : Type}

theorem get_bind {s : State} {f : State → Compiler β} : (get >>= f) s = f s s := rfl

theorem modify_bind {s : State} {g : State → State} {f : Unit → Compiler β} :
    (modify g >>= f) s = f () (g s) := rfl

theorem bind_eq_some {x : Compiler α} {f : α → Compiler β} {s s' : State} {b : β} :
    (x >>= f) s = some (b, s') ↔ ∃ a s₁, x s = some (a, s₁) ∧ f a s₁ = some (b, s') := by
  constructor
  · intro h
    cases hx : x s with
    | none => simp [bind, StateT.bind, hx] at h
    | some p => exact ⟨p.1, p.2, rfl, by simpa [bind, StateT.bind, hx] using h⟩
  · rintro ⟨a, s₁, hx, hf⟩
    simp [bind, StateT.bind, hx, hf]

instance (a : α) : Keeps (pure a : Compiler α) where
  later h := by cases h; exact .refl _

instance : Keeps (get : Compiler State) where
  later h := by cases h; exact .refl _

instance : Keeps (outOfFuel : Compiler α) where
  later h := by cases h

instance Keeps.bind {x : Compiler α} {f : α → Compiler β} [Keeps x] [∀ a, Keeps (f a)] :
    Keeps (x >>= f) where
  later h := by
    obtain ⟨a, s₁, hx, hf⟩ := bind_eq_some.1 h
    exact (Keeps.later hx).trans (Keeps.later hf)

instance {p : Prop} [Decidable p] {x y : Compiler α} [Keeps x] [Keeps y] :
    Keeps (if p then x else y) := by
  split <;> infer_instance

/-- For continuations that are split before instances are looked for. -/
theorem Keeps.andThen {x : Compiler α} {f : α → Compiler β} (hx : Keeps x)
    (hf : ∀ a, Keeps (f a)) : Keeps (x >>= f) :=
  inferInstance

theorem Keeps.modify {f : State → State} (hf : ∀ s : State, s.Later (f s)) :
    Keeps (modify f : Compiler Unit) where
  later h := by cases h; exact hf _

theorem Keeps.modifyGet {f : State → α × State} (hf : ∀ s : State, s.Later (f s).2) :
    Keeps (modifyGet f : Compiler α) where
  later {s} _ _ h := by
    have e : f s = _ := Option.some.inj h
    have := hf s
    rwa [e] at this

theorem Runs.start {x : Compiler α} [Keeps x] {s s' : State} {a : α} (h : Runs x s a s') :
    s.errors = #[] :=
  (Keeps.later h.1).errors h.2

theorem runs_bind {x : Compiler α} {f : α → Compiler β} [∀ a, Keeps (f a)] {s s' : State}
    {b : β} (h : Runs (x >>= f) s b s') : ∃ a s₁, Runs x s a s₁ ∧ Runs (f a) s₁ b s' := by
  obtain ⟨a, s₁, hx, hf⟩ := bind_eq_some.1 h.1
  exact ⟨a, s₁, ⟨hx, (Keeps.later hf).errors h.2⟩, hf, h.2⟩

end Monad

namespace State

theorem later_reportAt (s : State) (t : Token) (fault : Fault) : s.Later (s.reportAt t fault) := by
  unfold reportAt
  split
  · exact .refl s
  · exact ⟨fun h => by simp at h, fun _ _ => by simp, .refl _, id⟩

/-- Reading ahead records the faults of the source that it meets. -/
theorem take_records (ts : List Token) : ∀ s : State,
    ((s.take ts).errors = #[] → s.errors = #[]) ∧ (s.Sound → (s.take ts).Sound) ∧
      s.heap.Gains (s.take ts).heap := by
  induction ts with
  | nil => exact fun _ => ⟨id, id, .refl _⟩
  | cons t ts ih =>
    intro s
    unfold take
    split
    next fault _ =>
      have reported := later_reportAt s t (.lexical fault)
      obtain ⟨errors, sound, heap⟩ := ih (s.reportAt t (.lexical fault))
      exact ⟨reported.errors ∘ errors, sound ∘ reported.sound, reported.heap.trans heap⟩
    next => exact ⟨id, id, .refl _⟩

theorem later_advance (s : State) : s.Later s.advance := by
  obtain ⟨errors, sound, heap⟩ := take_records s.rest { s with previous := s.current }
  refine ⟨errors, sound, heap, fun ⟨rest, eof⟩ => ?_⟩
  rw [advance, rest]
  exact ⟨rfl, eof⟩

theorem later_skip {n : Nat} : ∀ {s : State}, s.Later (skip n s) := by
  induction n with
  | zero => exact .refl _
  | succ n ih =>
    intro s
    unfold skip
    split
    · exact .refl s
    · exact (later_advance s).trans ih

theorem later_dropLocals (ls : List Local) : ∀ {s : State}, s.Later (s.dropLocals ls) := by
  induction ls with
  | nil => exact ⟨id, id, .refl _, id⟩
  | cons l ls ih =>
    intro s
    unfold dropLocals
    split
    · have h := ih (s := s.emit (if l.captured then .closeUpvalue else .pop))
      exact ⟨h.errors, h.sound, h.heap, h.ended⟩
    · exact ⟨id, id, .refl _, id⟩

end State

section Steps

instance : Keeps advance := .modify State.later_advance

instance (fault : Fault) : Keeps (report fault) := .modify fun s => s.later_reportAt _ _

instance (fault : Fault) : Keeps (reportCurrent fault) := .modify fun s => s.later_reportAt _ _

instance (k : TokenKind) : Keeps (check k) := by unfold check; infer_instance

instance (k : TokenKind) : Keeps (accept k) := by unfold accept; infer_instance

instance (k : TokenKind) (what : Expectation) : Keeps (consume k what) := by
  unfold consume; infer_instance

instance (i : Instruction) : Keeps (emit i) := .modify fun _ => ⟨id, id, .refl _, id⟩

instance (is : List Instruction) : Keeps (emitAll is) := by
  induction is with
  | nil => unfold emitAll; infer_instance
  | cons i is ih => unfold emitAll; infer_instance

instance : Keeps emitReturn := by unfold emitReturn; infer_instance

instance : Keeps here := by unfold here; infer_instance

instance (text : String) : Keeps (intern text) := .modifyGet fun _ => ⟨id, id, .string text (.refl _), id⟩

instance (v : Value) : Keeps (addConstant v) := by
  unfold addConstant
  refine .andThen inferInstance fun s => ?_
  split
  · have (chunk : Chunk) :
        Keeps (modify fun s : State => { s with draft := { s.draft with chunk } }) :=
      .modify fun _ => ⟨id, id, .refl _, id⟩
    infer_instance
  · infer_instance

instance (v : Value) : Keeps (emitConstant v) := by unfold emitConstant; infer_instance

instance (jump : UInt16 → Instruction) : Keeps (emitJump jump) := by
  unfold emitJump; infer_instance

instance (offset : Nat) : Keeps (landJump offset) := by
  have (n : Nat) : Keeps (modify fun s : State => { s with
      draft := { s.draft with chunk := s.draft.chunk.setDistance offset n.toUInt16 } }) :=
    .modify fun _ => ⟨id, id, .refl _, id⟩
  unfold landJump; infer_instance

instance (start : Nat) : Keeps (emitBackJump start) := by unfold emitBackJump; infer_instance

instance (name : Ref) : Keeps (beginFunction name) := .modify fun _ => ⟨id, id, .refl _, id⟩

theorem endFunction_eq : endFunction = (do
    emitReturn
    modifyGet fun s => ((s.draft.finish, s.draft.captures),
      { s with
        draft := s.enclosing.headD (.new .script none)
        enclosing := s.enclosing.tail
        summaries := s.summaries.push (.of s.heap s.draft.finish) })) := by
  unfold endFunction
  congr
  funext _
  congr
  funext s
  cases s.enclosing <;> rfl

instance : Keeps endFunction := by
  rw [endFunction_eq]
  have : Keeps (modifyGet fun s : State => ((s.draft.finish, s.draft.captures),
      { s with
        draft := s.enclosing.headD (.new .script none)
        enclosing := s.enclosing.tail
        summaries := s.summaries.push (.of s.heap s.draft.finish) })) :=
    .modifyGet fun _ => ⟨id, id, .refl _, id⟩
  infer_instance

instance (f : Function) : Keeps (allocate (.function f)) :=
  .modifyGet fun _ => ⟨id, id, .function f (.refl _), id⟩

instance : Keeps depth := by unfold depth; infer_instance

instance : Keeps openScope := .modify fun _ => ⟨id, id, .refl _, id⟩

instance : Keeps closeScope := .modify fun s =>
  have h := State.later_dropLocals s.draft.locals
    (s := { s with draft := { s.draft with depth := s.draft.depth - 1 } })
  ⟨h.errors, h.sound, h.heap, h.ended⟩

instance (name : String) : Keeps (nameConstant name) := by unfold nameConstant; infer_instance

instance (name : String) : Keeps (addLocal name) := by
  have : Keeps (modify fun s : State => { s with
      draft := { s.draft with locals := ⟨name, none, false⟩ :: s.draft.locals } }) :=
    .modify fun _ => ⟨id, id, .refl _, id⟩
  unfold addLocal; infer_instance

instance : Keeps declareVariable := by unfold declareVariable; infer_instance

instance (what : Expectation) : Keeps (newVariable what) := by unfold newVariable; infer_instance

instance : Keeps makeReadable := by
  have : Keeps (modify fun s : State => { s with draft := s.draft.makeReadable }) :=
    .modify fun _ => ⟨id, id, .refl _, id⟩
  unfold makeReadable; infer_instance

instance (global : UInt8) : Keeps (defineVariable global) := by
  unfold defineVariable; infer_instance

instance (fault : Option Fault) : Keeps (reportFault fault) := by
  unfold reportFault
  split <;> infer_instance

instance (name : String) : Keeps (resolve name) := by
  unfold resolve
  refine .andThen inferInstance fun s => ?_
  split
  · infer_instance
  · split
    · have (r : Resolution) : Keeps (modify fun s : State =>
          { s with draft := r.draft, enclosing := r.enclosing }) :=
        .modify fun _ => ⟨id, id, .refl _, id⟩
      infer_instance
    · infer_instance

instance : Keeps (modify State.recover : Compiler Unit) :=
  .modify fun s =>
    have h := State.later_skip (n := s.rest.length + 1) (s := { s with panicking := false })
    ⟨h.errors, fun _ => h.sound (fun e => by cases e), h.heap, h.ended⟩

end Steps

section Parts

/-- Makes the closure of a function whose body has ended. -/
def closeFunction : Compiler Unit := do
  let (f, captures) ← endFunction
  let r ← allocate (.function f)
  emit (.closure (← addConstant (.object r)))
  emitAll (captures.toList.map .capture)

instance : Keeps closeFunction := by
  unfold closeFunction
  dsimp only
  infer_instance

theorem function_succ (n : Nat) : function (n + 1) = (do
    beginFunction (← intern (← get).previous.lexeme)
    openScope
    consume (.punctuation .leftParen) .parenAfterFunctionName
    unless ← check (.punctuation .rightParen) do
      parameters n
    consume (.punctuation .rightParen) .parenAfterParameters
    consume (.punctuation .leftBrace) .braceBeforeBody
    block n
    closeFunction) := by
  rw [function]
  rfl

/-- Ends a loop and the scope of its variable. -/
def leaveLoop (exit : Option Nat) : Compiler Unit := do
  match exit with
  | some exit =>
    landJump exit
    emit .pop
  | none => pure ()
  closeScope

instance (exit : Option Nat) : Keeps (leaveLoop exit) := by
  unfold leaveLoop
  cases exit <;> infer_instance

theorem forStatement_succ (n : Nat) : forStatement (n + 1) = (do
    openScope
    consume (.punctuation .leftParen) .parenAfterFor
    forInitializer n
    let start ← here
    let exit ← forCondition n
    let start ← forIncrement n start
    statement n
    emitBackJump start
    leaveLoop exit) := by
  rw [forStatement]
  rfl

/-- A declaration or a statement, without the way to the next one. -/
def construct (n : Nat) : Compiler Unit := do
  if ← accept (.keyword .fun) then
    functionDeclaration n
  else if ← accept (.keyword .var) then
    variableDeclaration n
  else
    statement n

theorem declaration_succ (n : Nat) : declaration (n + 1) = (do
    construct n
    if (← get).panicking then
      modify State.recover) := by
  rw [declaration]
  unfold construct
  dsimp only
  rw [bind_assoc]
  congr 1
  funext isFunction
  cases isFunction with
  | true => rfl
  | false =>
    simp only [Bool.false_eq_true, if_false, bind_assoc]
    congr 1
    funext isVariable
    cases isVariable <;> rfl

end Parts

section Productions

/-- The productions of expressions, for one recursion budget. -/
class KeepExpressions (n : Nat) : Prop where
  expression : Keeps (expression n)
  operand : ∀ p, Keeps (operand n p)
  operators : ∀ p b, Keeps (operators n p b)
  leading : ∀ form b, Keeps (leading n form b)
  trailing : ∀ form b, Keeps (trailing n form b)
  items : ∀ close limit what, Keeps (items n close limit what)
  itemsFrom : ∀ limit count, Keeps (itemsFrom n limit count)

attribute [instance] KeepExpressions.expression KeepExpressions.operand KeepExpressions.operators
  KeepExpressions.leading KeepExpressions.trailing KeepExpressions.items KeepExpressions.itemsFrom

instance keepExpressions (n : Nat) : KeepExpressions n := by
  induction n with
  | zero =>
    constructor <;> intros <;>
      simp only [Compile.expression, Compile.operand, Compile.operators, Compile.leading,
        Compile.trailing, Compile.items, Compile.itemsFrom] <;> infer_instance
  | succ n ih =>
    constructor
    · unfold Compile.expression; infer_instance
    · intro p
      unfold Compile.operand
      refine .andThen inferInstance fun _ => .andThen inferInstance fun s => ?_
      split <;> infer_instance
    · intro p b
      unfold Compile.operators
      refine .andThen inferInstance fun s => ?_
      split <;> infer_instance
    · intro form b
      unfold Compile.leading
      split <;> infer_instance
    · intro form b
      unfold Compile.trailing
      split <;> infer_instance
    · intro close limit what
      unfold Compile.items; infer_instance
    · intro limit count
      unfold Compile.itemsFrom; infer_instance

set_option synthInstance.maxSize 5000

/-- The productions of statements, for one recursion budget. -/
class KeepStatements (n : Nat) : Prop where
  declaration : Keeps (declaration n)
  functionDeclaration : Keeps (functionDeclaration n)
  variableDeclaration : Keeps (variableDeclaration n)
  function : Keeps (function n)
  parameters : Keeps (parameters n)
  statement : Keeps (statement n)
  block : Keeps (block n)
  expressionStatement : Keeps (expressionStatement n)
  returnStatement : Keeps (returnStatement n)
  ifStatement : Keeps (ifStatement n)
  whileStatement : Keeps (whileStatement n)
  forStatement : Keeps (forStatement n)
  forInitializer : Keeps (forInitializer n)
  forCondition : Keeps (forCondition n)
  forIncrement : ∀ start, Keeps (forIncrement n start)

attribute [instance] KeepStatements.declaration KeepStatements.functionDeclaration
  KeepStatements.variableDeclaration KeepStatements.function KeepStatements.parameters
  KeepStatements.statement KeepStatements.block KeepStatements.expressionStatement
  KeepStatements.returnStatement KeepStatements.ifStatement KeepStatements.whileStatement
  KeepStatements.forStatement KeepStatements.forInitializer KeepStatements.forCondition
  KeepStatements.forIncrement

instance keepStatements (n : Nat) : KeepStatements n := by
  induction n with
  | zero =>
    constructor <;> intros <;>
      simp only [Compile.declaration, Compile.functionDeclaration, Compile.variableDeclaration,
        Compile.function, Compile.parameters, Compile.statement, Compile.block,
        Compile.expressionStatement, Compile.returnStatement, Compile.ifStatement,
        Compile.whileStatement, Compile.forStatement, Compile.forInitializer,
        Compile.forCondition, Compile.forIncrement] <;> infer_instance
  | succ n ih =>
    constructor
    · unfold Compile.declaration
      dsimp only
      infer_instance
    · unfold Compile.functionDeclaration; infer_instance
    · unfold Compile.variableDeclaration; infer_instance
    · rw [function_succ]
      dsimp only
      refine .andThen inferInstance fun _ => .andThen inferInstance fun _ =>
        .andThen inferInstance fun _ => .andThen inferInstance fun _ =>
        .andThen inferInstance fun _ => .andThen inferInstance fun _ => ?_
      split <;> infer_instance
    · unfold Compile.parameters
      have : Keeps (modify fun s : State =>
          { s with draft := { s.draft with arity := s.draft.arity + 1 } }) :=
        .modify fun _ => ⟨id, id, .refl _, id⟩
      dsimp only
      infer_instance
    · unfold Compile.statement
      infer_instance
    · unfold Compile.block; infer_instance
    · unfold Compile.expressionStatement; infer_instance
    · unfold Compile.returnStatement
      dsimp only
      infer_instance
    · unfold Compile.ifStatement
      dsimp only
      infer_instance
    · unfold Compile.whileStatement; infer_instance
    · rw [forStatement_succ]; infer_instance
    · unfold Compile.forInitializer; infer_instance
    · unfold Compile.forCondition; infer_instance
    · intro start
      rw [Compile.forIncrement]; infer_instance

instance keepDeclarations (n : Nat) : Keeps (declarations n) := by
  induction n with
  | zero => unfold declarations; infer_instance
  | succ n ih => unfold declarations; infer_instance

end Productions

end Compile
end StackScript
