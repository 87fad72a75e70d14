import StackScript.Proofs.Compile.Ending
import StackScript.Proofs.Compile.Renaming
import StackScript.Proofs.Machine.Interned

/-!
# StackScript.Proofs.Compile.Independent

What a heap holds does not show in what a source is compiled to.

* `uniformExpressions`, `uniformStatements`: all productions do the same on two heaps, by induction
  on the recursion budget.
* `Compilation.Renamed`: the same errors, or scripts that are the same but for handles.
* `compile_independent`: one source, two heaps.
-/

namespace StackScript
namespace Compile

section Productions

set_option synthInstance.maxSize 5000

/-- The productions of expressions, for one recursion budget. -/
class UniformExpressions (n : Nat) : Prop where
  expression : Uniform (expression n)
  operand : ∀ p, Uniform (operand n p)
  operators : ∀ p b, Uniform (operators n p b)
  leading : ∀ form b, Uniform (leading n form b)
  trailing : ∀ form b, Uniform (trailing n form b)
  items : ∀ close limit what, Uniform (items n close limit what)
  itemsFrom : ∀ limit count, Uniform (itemsFrom n limit count)

attribute [instance] UniformExpressions.expression UniformExpressions.operand
  UniformExpressions.operators UniformExpressions.leading UniformExpressions.trailing
  UniformExpressions.items UniformExpressions.itemsFrom

variable {n : Nat}

theorem uniform_leading [UniformExpressions n] (form : Leading) (assignable : Bool) :
    Uniform (leading (n + 1) form assignable) := by
  unfold Compile.leading
  split
  · infer_instance
  · infer_instance
  · infer_instance
  · refine .get inferInstance fun b s t h => ?_
    rw [h.previous]
    exact Uniform.concur b
  · refine .get inferInstance fun b s t h => ?_
    rw [h.previous]
    exact .bind inferInstance inferInstance (concur_intern _) fun _ _ _ _ h =>
      concur_emitConstant (Bridge.values_of_text h)
  · refine .get inferInstance fun b s t h => ?_
    rw [h.previous]
    exact Uniform.concur b
  · infer_instance

instance uniformExpressions (n : Nat) : UniformExpressions n := by
  induction n with
  | zero =>
    constructor <;> intros <;>
      simp only [Compile.expression, Compile.operand, Compile.operators, Compile.leading,
        Compile.trailing, Compile.items, Compile.itemsFrom] <;> infer_instance
  | succ n ih =>
    constructor
    · unfold Compile.expression; infer_instance
    · intro p
      unfold Compile.operand
      refine .andThen inferInstance fun _ => .get (fun s => ?_) fun b s t h => ?_
      · split <;> infer_instance
      · rw [h.previous]
        split <;> exact Uniform.concur b
    · intro p assignable
      unfold Compile.operators
      refine .get (fun s => ?_) fun b s t h => ?_
      · split <;> infer_instance
      · rw [h.current]
        split <;> exact Uniform.concur b
    · exact uniform_leading
    · intro form b
      unfold Compile.trailing
      split <;> infer_instance
    · intro close limit what
      unfold Compile.items; infer_instance
    · intro limit count
      unfold Compile.itemsFrom
      dsimp only
      infer_instance

/-- The productions of statements, for one recursion budget. -/
class UniformStatements (n : Nat) : Prop where
  declaration : Uniform (declaration n)
  functionDeclaration : Uniform (functionDeclaration n)
  variableDeclaration : Uniform (variableDeclaration n)
  function : Uniform (function n)
  parameters : Uniform (parameters n)
  statement : Uniform (statement n)
  block : Uniform (block n)
  expressionStatement : Uniform (expressionStatement n)
  returnStatement : Uniform (returnStatement n)
  ifStatement : Uniform (ifStatement n)
  whileStatement : Uniform (whileStatement n)
  forStatement : Uniform (forStatement n)
  forInitializer : Uniform (forInitializer n)
  forCondition : Uniform (forCondition n)
  forIncrement : ∀ start, Uniform (forIncrement n start)

attribute [instance] UniformStatements.declaration UniformStatements.functionDeclaration
  UniformStatements.variableDeclaration UniformStatements.function UniformStatements.parameters
  UniformStatements.statement UniformStatements.block UniformStatements.expressionStatement
  UniformStatements.returnStatement UniformStatements.ifStatement UniformStatements.whileStatement
  UniformStatements.forStatement UniformStatements.forInitializer UniformStatements.forCondition
  UniformStatements.forIncrement

theorem uniform_declaration [UniformStatements n] : Uniform (declaration (n + 1)) := by
  have recovering : Uniform (do if (← get).panicking then modify State.recover : Compiler Unit) :=
    .get inferInstance fun b s t h => by
      rw [h.panicking]
      exact Uniform.concur b
  rw [declaration_succ]
  unfold construct
  infer_instance

/-- Functions end alike, so what is made of them is alike. -/
instance : Uniform closeFunction where
  keeps := inferInstance
  concur b := by
    unfold closeFunction
    dsimp only
    refine .bind inferInstance inferInstance concur_endFunction fun b₁ p p' _ same => ?_
    obtain ⟨f, captures⟩ := p
    obtain ⟨f', captures'⟩ := p'
    obtain ⟨alike, rfl⟩ : f.Renamed b₁ f' ∧ captures' = captures := same
    refine .bind inferInstance inferInstance (concur_allocate alike) fun b₂ r q _ pair => ?_
    refine .bind inferInstance inferInstance (concur_addConstant (.object (.paired pair)))
      fun b₃ k k' _ e => ?_
    subst e
    exact Uniform.concur b₃

theorem uniform_function [UniformStatements n] : Uniform (function (n + 1)) where
  keeps := inferInstance
  concur b := by
    have body : Uniform (do
        openScope
        consume (.punctuation .leftParen) .parenAfterFunctionName
        unless ← check (.punctuation .rightParen) do
          parameters n
        consume (.punctuation .rightParen) .parenAfterParameters
        consume (.punctuation .leftBrace) .braceBeforeBody
        block n
        closeFunction) := by
      dsimp only
      infer_instance
    rw [function_succ]
    refine .get fun s t h => ?_
    rw [h.previous]
    refine .bind inferInstance inferInstance (concur_intern _) fun b₁ r q _ text => ?_
    exact .bind (fun _ => body.keeps) (fun _ => body.keeps) (concur_beginFunction text)
      fun b₂ _ _ _ _ => body.concur b₂

theorem uniform_parameters [UniformStatements n] : Uniform (parameters (n + 1)) := by
  have keeps : Keeps (modify fun s : State =>
      { s with draft := { s.draft with arity := s.draft.arity + 1 } }) :=
    .modify fun _ => ⟨id, id, .refl _, id⟩
  have counts : Uniform (modify fun s : State =>
      { s with draft := { s.draft with arity := s.draft.arity + 1 } }) :=
    .modify inferInstance fun _ _ _ h => h.redraft ⟨h.draft.kind, h.draft.name,
      congrArg (· + 1) h.draft.arity, h.draft.chunk, h.draft.locals, h.draft.captures,
      h.draft.depth⟩
  unfold Compile.parameters
  dsimp only
  refine .andThen counts fun _ => .get inferInstance fun b s t h => ?_
  rw [h.draft.arity]
  exact Uniform.concur b

theorem uniform_returnStatement [UniformStatements n] : Uniform (returnStatement (n + 1)) := by
  unfold Compile.returnStatement
  dsimp only
  refine .get inferInstance fun b s t h => ?_
  rw [h.draft.kind]
  exact Uniform.concur b

instance (exit : Option Nat) : Uniform (leaveLoop exit) := by
  unfold leaveLoop
  cases exit <;> infer_instance

instance uniformStatements (n : Nat) : UniformStatements n := by
  induction n with
  | zero =>
    constructor <;> intros <;>
      simp only [Compile.declaration, Compile.functionDeclaration, Compile.variableDeclaration,
        Compile.function, Compile.parameters, Compile.statement, Compile.block,
        Compile.expressionStatement, Compile.returnStatement, Compile.ifStatement,
        Compile.whileStatement, Compile.forStatement, Compile.forInitializer,
        Compile.forCondition, Compile.forIncrement] <;> infer_instance
  | succ n ih =>
    constructor
    · exact uniform_declaration
    · unfold Compile.functionDeclaration; infer_instance
    · unfold Compile.variableDeclaration; infer_instance
    · exact uniform_function
    · exact uniform_parameters
    · unfold Compile.statement; infer_instance
    · unfold Compile.block; infer_instance
    · unfold Compile.expressionStatement; infer_instance
    · exact uniform_returnStatement
    · unfold Compile.ifStatement
      dsimp only
      infer_instance
    · unfold Compile.whileStatement; infer_instance
    · rw [forStatement_succ]; infer_instance
    · unfold Compile.forInitializer; infer_instance
    · unfold Compile.forCondition; infer_instance
    · intro start
      rw [Compile.forIncrement]; infer_instance

instance uniformDeclarations (n : Nat) : Uniform (declarations n) := by
  induction n with
  | zero => unfold declarations; infer_instance
  | succ n ih => unfold declarations; infer_instance

end Productions

theorem concur_script {b : Bridge} (n : Nat) :
    Concur b (fun b' f g => f.Renamed b' g) (script n) (script n) := by
  unfold script
  refine .bind inferInstance inferInstance (Uniform.concur b) fun b₁ _ _ _ _ => ?_
  refine .bind inferInstance inferInstance (Uniform.concur b₁) fun b₂ _ _ _ _ => ?_
  exact .bind inferInstance inferInstance concur_endFunction fun b₃ p q _ same => .pure same.1

theorem State.renamed_new (tokens : List Token) {near far : Heap} (sound : near.Sound)
    (sound' : far.Sound) :
    (State.new tokens near).Renamed (.between near far) (.new tokens far) :=
  ⟨rfl, rfl, rfl, rfl, rfl, rfl, rfl, rfl, ⟨rfl, .none, rfl, ⟨rfl, rfl, .nil⟩, rfl, rfl, rfl⟩, .nil,
    Bridge.renames_between sound sound'⟩

/-- The same errors, or scripts that belong together. -/
inductive Results (b : Bridge) : Except (List Error) Ref → Except (List Error) Ref → Prop where
  | failed (errors : List Error) : Results b (.error errors) (.error errors)
  | compiled {r q : Ref} : b.pairs r q → Results b (.ok r) (.ok q)

/-- What was compiled is the same but for handles. -/
structure Compilation.Renamed (b : Bridge) (c d : Compilation) : Prop where
  near : b.near = c.heap
  far : b.far = d.heap
  renames : b.Renames
  results : Results b c.result d.result
  summaries : d.summaries = c.summaries

theorem Compilation.renamed_ofState {b : Bridge} {f g : Function} {s t : State}
    (h : s.Renamed b t) (same : f.Renamed b g)
    (fits : (Compilation.ofState f s).heap.size ≤ UInt32.size)
    (fits' : (Compilation.ofState g t).heap.size ≤ UInt32.size) :
    ∃ b', (Compilation.ofState f s).Renamed b' (.ofState g t) := by
  have summaries := congrArg Array.toList h.summaries
  unfold Compilation.ofState at fits fits' ⊢
  rw [h.errors] at fits' ⊢
  by_cases e : s.errors.isEmpty
  · rw [if_pos e] at fits fits' ⊢
    rw [if_pos e]
    rw [h.near] at fits ⊢
    rw [h.far] at fits' ⊢
    obtain ⟨-, renames⟩ := h.renames.allocate same fits fits'
    exact ⟨_, rfl, rfl, renames, .compiled (.inr ⟨rfl, rfl⟩), summaries⟩
  · rw [if_neg e, if_neg e]
    exact ⟨b, h.near.symm, h.far.symm, h.renames, .failed _, summaries⟩

theorem compile_renamed (source : String) {near far : Heap} (sound : near.Sound)
    (sound' : far.Sound) (fits : (compile source near).heap.size ≤ UInt32.size)
    (fits' : (compile source far).heap.size ≤ UInt32.size) :
    ∃ b, (compile source near).Renamed b (compile source far) := by
  obtain ⟨f, s, ends, e⟩ := compile_eq_ofState source near
  obtain ⟨g, t, ends', e'⟩ := compile_eq_ofState source far
  rw [e] at fits ⊢
  rw [e'] at fits' ⊢
  have room := Nat.le_trans (Compilation.size_ofState f s) fits
  have room' := Nat.le_trans (Compilation.size_ofState g t) fits'
  obtain ⟨b, -, renamed, same⟩ := concur_script _
    (State.renamed_new (Lexical.scan source) sound sound') ends ends' room room'
  exact Compilation.renamed_ofState renamed same fits fits'

/-- What a heap holds does not show in what a source is compiled to: on any two heaps there are the
same errors, or scripts that are the same but for handles, down through all their constants. So it
is with a line in a session of any length and the same line on a new machine. -/
theorem compile_independent (source : String) :
    (∀ {near far : Heap} {texts texts' : List String}, near.Built texts → far.Built texts' →
      (compile source near).heap.size ≤ UInt32.size →
      (compile source far).heap.size ≤ UInt32.size →
      ∃ b, (compile source near).Renamed b (compile source far)) ∧
    ∀ {m : Machine} (output : Machine.Output) (world : Machine.World), m.Reachable →
      (compile source m.heap).heap.size ≤ UInt32.size →
      (compile source (Machine.new output world).heap).heap.size ≤ UInt32.size →
      ∃ b, (compile source m.heap).Renamed b (compile source (Machine.new output world).heap) := by
  refine ⟨fun built built' => compile_renamed source built.sound built'.sound, ?_⟩
  intro m output world reachable fits
  have size := (compile_gains source m.heap).extends.size_le
  obtain ⟨texts, built⟩ := reachable.built (Nat.le_trans size fits)
  obtain ⟨texts', built'⟩ := Machine.built_new output world
  exact compile_renamed source built.sound built'.sound fits

/-- The function and both of its strings have other handles on the second heap, where the second
string was interned before. -/
theorem compile_independent_interned :
    let source := "fun f(x) \x7b return x + \"a\"; \x7d"
    let far := ((Heap.empty.intern "a").1.allocate (.array #[])).1
    Heap.empty.Built [] ∧ far.Built ["a"] ∧
      (compile source .empty).result = .ok ⟨3⟩ ∧ (compile source far).result = .ok ⟨4⟩ ∧
      ∃ b, (compile source .empty).Renamed b (compile source far) := by
  intro source far
  have built : far.Built ["a"] := .allocate nofun (.intern "a" .empty (by decide +kernel))
    (by decide +kernel)
  have size : (compile source .empty).heap.size = 4 := by decide +kernel
  have size' : (compile source far).heap.size = 5 := by decide +kernel
  have fits : (compile source .empty).heap.size ≤ UInt32.size := by
    rw [size]
    decide
  have fits' : (compile source far).heap.size ≤ UInt32.size := by
    rw [size']
    decide
  exact ⟨.empty, built, by decide +kernel, by decide +kernel,
    (compile_independent source).1 .empty built fits fits'⟩

end Compile
end StackScript
