import StackScript.Proofs.Compile.Faultless
import StackScript.Proofs.Compile.Watch

/-!
# StackScript.Proofs.Compile.Mimic

The compiler that is watched does what the compiler does, unless it stalls or crashes.

* `Mimics x y`: if the watched computation `x` gives a result, then `y` gives the same, and if the
  budget of `x` runs out, so does that of `y`.
* `Avoids halt post`: a result that satisfies `post`, or a halt other than `halt`.
* `Watched.mimics_script`: a script that is watched mimics the script.
-/

namespace StackScript
namespace Compile

variable {α β : Type}

/-- What a watched computation comes to, beside what a computation comes to. -/
def Beside : Except Halt (α × Course) → Option (α × State) → Prop
  | .ok (a, c), o => o = some (a, c.state)
  | .error .outOfFuel, o => o = none
  | .error _, _ => True

class Mimics (x : Watched α) (y : Compiler α) : Prop where
  beside : ∀ c : Course, Beside (x c) (y c.state)

section Monad

theorem Watched.bind_apply {x : Watched α} {f : α → Watched β} {c : Course} :
    (x >>= f) c = match x c with
      | .ok (a, c') => f a c'
      | .error halt => .error halt := by
  cases h : x c <;> simp [bind, StateT.bind, Except.bind, h]

theorem Watched.liftM_apply {y : Compiler α} {c : Course} :
    (liftM y : Watched α) c = match y c.state with
      | some (a, s) => .ok (a, { c with state := s })
      | none => .error .outOfFuel := rfl

/-- What a watched computation comes to: a result that satisfies `post`, or a halt other than a
given one. -/
def Avoids (halt : Halt) (post : α → Course → Prop) : Except Halt (α × Course) → Prop
  | .ok (a, c) => post a c
  | .error other => other ≠ halt

namespace Avoids

variable {halt : Halt} {post post' : α → Course → Prop}

theorem mono {r : Except Halt (α × Course)} (h : Avoids halt post r)
    (hp : ∀ a c, post a c → post' a c) : Avoids halt post' r := by
  cases r with
  | ok p => exact hp _ _ h
  | error other => exact h

theorem bind {x : Watched α} {f : α → Watched β} {goal : β → Course → Prop} {c : Course}
    (hx : Avoids halt post (x c)) (hf : ∀ a c', post a c' → Avoids halt goal (f a c')) :
    Avoids halt goal ((x >>= f) c) := by
  rw [Watched.bind_apply]
  cases h : x c with
  | error other =>
    rw [h] at hx
    exact hx
  | ok p =>
    rw [h] at hx
    exact hf _ _ hx

theorem ne {r : Except Halt (α × Course)} (h : Avoids halt post r) : r ≠ .error halt := by
  rintro rfl
  exact h rfl

/-- A computation that is not watched runs out of fuel at worst. -/
theorem ofLift {y : Compiler α} {c : Course} (hh : halt ≠ .outOfFuel)
    (h : ∀ a s, y c.state = some (a, s) → post a { c with state := s }) :
    Avoids halt post ((liftM y : Watched α) c) := by
  rw [Watched.liftM_apply]
  cases e : y c.state with
  | none => exact hh.symm
  | some p => exact h _ _ e

end Avoids

instance (y : Compiler α) : Mimics (liftM y) y where
  beside c := by
    rw [Watched.liftM_apply]
    cases y c.state <;> rfl

instance (a : α) : Mimics (pure a) (pure a) := ⟨fun _ => rfl⟩

instance : Mimics Watched.state get := ⟨fun _ => rfl⟩

instance Mimics.bind {x : Watched α} {y : Compiler α} {f : α → Watched β} {g : α → Compiler β}
    [Mimics x y] [∀ a, Mimics (f a) (g a)] : Mimics (x >>= f) (y >>= g) where
  beside c := by
    have first := Mimics.beside (x := x) (y := y) c
    rw [Watched.bind_apply]
    cases hx : x c with
    | error halt =>
      rw [hx] at first
      cases halt with
      | outOfFuel =>
        have e : y c.state = none := first
        show (y >>= g) c.state = none
        simp [Bind.bind, StateT.bind, e]
      | stalled => trivial
      | crash => trivial
    | ok p =>
      obtain ⟨a, c'⟩ := p
      rw [hx] at first
      have e : y c.state = some (a, c'.state) := first
      have rest : (y >>= g) c.state = g a c'.state := by simp [Bind.bind, StateT.bind, e]
      rw [rest]
      exact Mimics.beside c'

/-- For continuations that are split before instances are looked for. -/
theorem Mimics.andThen {x : Watched α} {y : Compiler α} {f : α → Watched β}
    {g : α → Compiler β} (hx : Mimics x y) (hf : ∀ a, Mimics (f a) (g a)) :
    Mimics (x >>= f) (y >>= g) :=
  inferInstance

instance {p : Prop} [Decidable p] {x x' : Watched α} {y y' : Compiler α} [Mimics x y]
    [Mimics x' y'] : Mimics (if p then x else x') (if p then y else y') := by
  split <;> infer_instance

/-- What the watch does in front of a computation leaves the state alone. -/
theorem Mimics.behind {w : Watched Unit} {x : Watched α} {y : Compiler α} (hx : Mimics x y)
    (hw : ∀ c : Course, Beside (w c) (some ((), c.state))) : Mimics (w >>= fun _ => x) y where
  beside c := by
    have watch := hw c
    rw [Watched.bind_apply]
    cases h : w c with
    | error halt =>
      rw [h] at watch
      cases halt with
      | outOfFuel => cases watch
      | stalled => trivial
      | crash => trivial
    | ok p =>
      obtain ⟨u, c'⟩ := p
      rw [h] at watch
      have e : c.state = c'.state := by simpa [Beside] using watch
      rw [e]
      exact Mimics.beside c'

/-- To look at the state changes nothing. -/
theorem Mimics.look {f : State → Watched α} {y : Compiler α} (h : ∀ s, Mimics (f s) y) :
    Mimics (Watched.state >>= f) y where
  beside c := (h c.state).beside c

theorem Mimics.called {x : Watched α} {y : Compiler α} (hx : Mimics x y) :
    Mimics (Watched.call >>= fun _ => x) y :=
  hx.behind fun c => by
    unfold Watched.call
    split <;> trivial

instance {x : Watched α} {y : Compiler α} [Mimics x y] :
    Mimics (Watched.call >>= fun _ => x) y :=
  .called inferInstance

instance {x : Watched α} {y : Compiler α} [Mimics x y] :
    Mimics (Watched.restart >>= fun _ => x) y :=
  .behind inferInstance fun _ => rfl

instance {x : Watched α} {y : Compiler α} {holds : Bool} [Mimics x y] :
    Mimics (Watched.require holds >>= fun _ => x) y :=
  .behind inferInstance fun c => by
    unfold Watched.require
    split <;> trivial

end Monad

section Steps

instance : Mimics Watched.advance advance :=
  .look fun s => by split <;> infer_instance

instance (k : TokenKind) : Mimics (Watched.accept k) (accept k) := by
  unfold Watched.accept accept
  infer_instance

instance (k : TokenKind) (what : Expectation) : Mimics (Watched.consume k what) (consume k what) := by
  unfold Watched.consume consume
  infer_instance

/-- The search for the start of another statement takes the steps of `State.skip`. -/
instance (steps : Nat) : Mimics (Watched.skip steps) (modify (State.skip steps)) := by
  induction steps with
  | zero => exact ⟨fun _ => trivial⟩
  | succ steps ih =>
    refine ⟨fun c => ?_⟩
    unfold Watched.skip
    rw [Watched.bind_apply]
    change Beside ((if _ then _ else _ : Watched Unit) c) _
    have unfolded : (modify (State.skip (steps + 1)) : Compiler Unit) c.state =
        some ((), State.skip (steps + 1) c.state) := rfl
    rw [unfolded, State.skip]
    split
    next => rfl
    next =>
      have mimics : Mimics (do
          Watched.call
          Watched.advance
          Watched.skip steps) (do
          advance
          modify (State.skip steps)) := inferInstance
      exact mimics.beside c

instance : Mimics Watched.recover (modify State.recover) where
  beside c := by
    have calm : Watched.recover c = Watched.skip (c.state.rest.length + 1)
        { c with state := { c.state with panicking := false } } := rfl
    rw [calm]
    exact Mimics.beside (y := modify (State.skip (c.state.rest.length + 1))) _

instance (offset : Nat) : Mimics (Watched.landJump offset) (landJump offset) :=
  .look fun _ => inferInstance

instance (start : Nat) : Mimics (Watched.emitBackJump start) (emitBackJump start) :=
  .look fun _ => inferInstance

instance : Mimics Watched.closeScope closeScope := .look fun _ => inferInstance

instance (what : Expectation) : Mimics (Watched.newVariable what) (newVariable what) := by
  unfold Watched.newVariable newVariable
  infer_instance

instance (name : String) : Mimics (Watched.resolve name) (resolve name) :=
  .look fun _ => inferInstance

end Steps

section Expressions

structure MimicExpressions (n : Nat) : Prop where
  expression : Mimics (Watched.expression n) (expression n)
  operand : ∀ p, Mimics (Watched.operand n p) (operand n p)
  operators : ∀ p b, Mimics (Watched.operators n p b) (operators n p b)
  leading : ∀ form b, Mimics (Watched.leading n form b) (leading n form b)
  trailing : ∀ form b, Mimics (Watched.trailing n form b) (trailing n form b)
  items : ∀ close limit what, Mimics (Watched.items n close limit what) (items n close limit what)
  itemsFrom : ∀ limit count, Mimics (Watched.itemsFrom n limit count) (itemsFrom n limit count)

variable {n : Nat}

theorem leading_mimics (ih : MimicExpressions n) (form : Leading) (b : Bool) :
    Mimics (Watched.leading (n + 1) form b) (leading (n + 1) form b) := by
  have := ih.expression
  have := ih.operand
  have := ih.items
  unfold Watched.leading Compile.leading
  cases form with
  | string =>
    have (lexeme : String) : Mimics (do
        Watched.require (Watched.hasInside lexeme)
        let r ← intern (String.ofList (lexeme.toList.drop 1).dropLast)
        emitConstant (.object r)) (do
        let r ← intern (String.ofList (lexeme.toList.drop 1).dropLast)
        emitConstant (.object r)) := inferInstance
    infer_instance
  | _ => infer_instance

theorem trailing_mimics (ih : MimicExpressions n) (form : Trailing) (b : Bool) :
    Mimics (Watched.trailing (n + 1) form b) (trailing (n + 1) form b) := by
  have := ih.expression
  have := ih.operand
  have := ih.items
  unfold Watched.trailing Compile.trailing
  cases form <;> infer_instance

theorem mimicExpressions (n : Nat) : MimicExpressions n := by
  induction n with
  | zero =>
    have exhausted {α : Type} : Mimics (liftM (outOfFuel : Compiler α)) (outOfFuel : Compiler α) :=
      inferInstance
    constructor <;> intros <;> exact exhausted
  | succ n ih =>
    have := ih.operand
    have := ih.operators
    have := ih.leading
    have := ih.trailing
    have := ih.itemsFrom
    constructor
    · unfold Watched.expression Compile.expression
      infer_instance
    · intro p
      unfold Watched.operand Compile.operand
      refine .called (.andThen inferInstance fun _ => .andThen inferInstance fun s => ?_)
      cases leading? s.previous.kind with
      | none => infer_instance
      | some form =>
        dsimp only
        infer_instance
    · intro p b
      have := ih.operators
      unfold Watched.operators Compile.operators
      refine .andThen inferInstance fun s => ?_
      cases trailing? s.current.kind with
      | none => infer_instance
      | some form =>
        dsimp only
        infer_instance
    · exact leading_mimics ih
    · exact trailing_mimics ih
    · intro close limit what
      unfold Watched.items Compile.items
      infer_instance
    · intro limit count
      have := ih.expression
      unfold Watched.itemsFrom Compile.itemsFrom
      dsimp only
      infer_instance

end Expressions

section Statements

set_option synthInstance.maxSize 5000

structure MimicStatements (n : Nat) : Prop where
  declaration : Mimics (Watched.declaration n) (declaration n)
  functionDeclaration : Mimics (Watched.functionDeclaration n) (functionDeclaration n)
  variableDeclaration : Mimics (Watched.variableDeclaration n) (variableDeclaration n)
  function : Mimics (Watched.function n) (function n)
  parameters : Mimics (Watched.parameters n) (parameters n)
  statement : Mimics (Watched.statement n) (statement n)
  block : Mimics (Watched.block n) (block n)
  expressionStatement : Mimics (Watched.expressionStatement n) (expressionStatement n)
  returnStatement : Mimics (Watched.returnStatement n) (returnStatement n)
  ifStatement : Mimics (Watched.ifStatement n) (ifStatement n)
  whileStatement : Mimics (Watched.whileStatement n) (whileStatement n)
  forStatement : Mimics (Watched.forStatement n) (forStatement n)
  forInitializer : Mimics (Watched.forInitializer n) (forInitializer n)
  forCondition : Mimics (Watched.forCondition n) (forCondition n)
  forIncrement : ∀ start, Mimics (Watched.forIncrement n start) (forIncrement n start)

variable {n : Nat}

theorem statement_mimics (ih : MimicStatements n) :
    Mimics (Watched.statement (n + 1)) (statement (n + 1)) := by
  have := (mimicExpressions n).expression
  have := ih.forStatement
  have := ih.ifStatement
  have := ih.returnStatement
  have := ih.whileStatement
  have := ih.block
  have := ih.expressionStatement
  unfold Watched.statement Compile.statement
  infer_instance

theorem function_mimics (ih : MimicStatements n) :
    Mimics (Watched.function (n + 1)) (function (n + 1)) := by
  have := ih.parameters
  have := ih.block
  unfold Watched.function Compile.function
  dsimp only
  refine .called <| .andThen inferInstance fun _ => .andThen inferInstance fun _ =>
    .andThen inferInstance fun _ => .andThen inferInstance fun _ =>
    .andThen inferInstance fun _ => .andThen inferInstance fun none => ?_
  cases none <;> infer_instance

theorem forStatement_mimics (ih : MimicStatements n) :
    Mimics (Watched.forStatement (n + 1)) (forStatement (n + 1)) := by
  have := ih.forInitializer
  have := ih.forCondition
  have := ih.forIncrement
  have := ih.statement
  unfold Watched.forStatement Compile.forStatement
  refine .called <| .andThen inferInstance fun _ => .andThen inferInstance fun _ =>
    .andThen inferInstance fun _ => .andThen inferInstance fun _ =>
    .andThen inferInstance fun exit => ?_
  cases exit <;> infer_instance

theorem mimicStatements (n : Nat) : MimicStatements n := by
  induction n with
  | zero =>
    have exhausted {α : Type} : Mimics (liftM (outOfFuel : Compiler α)) (outOfFuel : Compiler α) :=
      inferInstance
    constructor <;> intros <;> exact exhausted
  | succ n ih =>
    have := (mimicExpressions n).expression
    constructor
    · have := ih.functionDeclaration
      have := ih.variableDeclaration
      have := ih.statement
      unfold Watched.declaration Compile.declaration
      dsimp only
      infer_instance
    · have := ih.function
      unfold Watched.functionDeclaration Compile.functionDeclaration
      infer_instance
    · unfold Watched.variableDeclaration Compile.variableDeclaration
      dsimp only
      infer_instance
    · exact function_mimics ih
    · have := ih.parameters
      unfold Watched.parameters Compile.parameters
      dsimp only
      infer_instance
    · exact statement_mimics ih
    · have := ih.declaration
      have := ih.block
      unfold Watched.block Compile.block
      infer_instance
    · unfold Watched.expressionStatement Compile.expressionStatement
      infer_instance
    · unfold Watched.returnStatement Compile.returnStatement
      dsimp only
      infer_instance
    · have := ih.statement
      unfold Watched.ifStatement Compile.ifStatement
      dsimp only
      infer_instance
    · have := ih.statement
      unfold Watched.whileStatement Compile.whileStatement
      infer_instance
    · exact forStatement_mimics ih
    · have := ih.variableDeclaration
      have := ih.expressionStatement
      unfold Watched.forInitializer Compile.forInitializer
      infer_instance
    · unfold Watched.forCondition Compile.forCondition
      infer_instance
    · intro start
      rw [Watched.forIncrement, Compile.forIncrement]
      infer_instance

end Statements

theorem declarations_mimics (n : Nat) : Mimics (Watched.declarations n) (declarations n) := by
  induction n with
  | zero => exact (inferInstance : Mimics (liftM (outOfFuel : Compiler Unit)) outOfFuel)
  | succ n ih =>
    have := (mimicStatements n).declaration
    unfold Watched.declarations Compile.declarations
    infer_instance

theorem Watched.mimics_script (n : Nat) : Mimics (script n) (Compile.script n) := by
  have := declarations_mimics n
  unfold Watched.script Compile.script
  infer_instance

end Compile
end StackScript
