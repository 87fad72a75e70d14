import StackScript.Proofs.Compile.Lockstep

/-!
# StackScript.Proofs.Compile.Replay

The productions, run by two compilers that are in front of the same token.

* `ReplaysExpressions`, `ReplaysStatements`: all productions, for one recursion budget of the near
  run and any of the far one.
-/

namespace StackScript
namespace Compile

open Instruction

theorem fails_outOfFuel {α : Type} : Fails (outOfFuel : Compiler α) :=
  fun _ _ _ _ h => by cases h.1

section Jumps

variable {c : Seam} {inside : Bool} {w w' : World}

theorem forward_jump : IsForward .jump := .inl rfl

theorem forward_jumpIfFalse : IsForward .jumpIfFalse := .inr rfl

/-- What is emitted behind a jump knows where the jump is. -/
theorem Rel.jumping {α : Type} {jump : UInt16 → Instruction} {f g : Nat → Compiler α}
    [∀ a, Keeps (f a)] [∀ a, Keeps (g a)] (forward : IsForward jump)
    (hf : ∀ w' a, w.Below w' → w'.level.jumps a →
      Rel c inside w' (Onward w') (f a) (g (w'.level.lead.length + a))) :
    Rel c inside w (Onward w) (emitJump jump >>= f) (emitJump jump >>= g) :=
  .andThen (rel_emitJump forward) fun w' a b h => by
    obtain ⟨rfl, rfl⟩ := h
    have below := World.below_withLevel (w.level.below_withJump a)
    exact (hf _ a below (.inr rfl)).since below

theorem rel_land {offset : Nat} (hw : w.Below w') (h : w.level.jumps offset) :
    Rel c inside w' (Same w') (landJump offset) (landJump (w.level.lead.length + offset)) := by
  rw [← hw.level.lead]
  exact rel_landJump (hw.level.jumps offset h)

theorem rel_back (hw : w.Below w') (start : Nat) :
    Rel c inside w' (Same w') (emitBackJump start)
      (emitBackJump (w.level.lead.length + start)) := by
  rw [← hw.level.lead]
  exact rel_emitBackJump start

theorem rel_sameAll {is : List Instruction} (h : ∀ i ∈ is, i.constant? = none) :
    Rel c inside w (Same w) (emitAll is) (emitAll is) := by
  refine rel_emitAll ?_
  induction is with
  | nil => exact .nil
  | cons i is ih =>
    exact .cons (.same (h i List.mem_cons_self)) (ih fun j hj => h j (List.mem_cons_of_mem i hj))

end Jumps

/-- To read a token, where something follows. -/
theorem Rel.advancing {c : Seam} {w : World} {α : Type} {f g : Unit → Compiler α}
    (kf : Keeps (f ())) (kg : Keeps (g ())) (h : Rel c true w (Onward w) (f ()) (g ())) :
    Rel c true w (Onward w) (advance >>= f) (advance >>= g) :=
  .bindWith (fun _ => kf) (fun _ => kg) (fun _ => .ofKeeps kf) rel_advance fun w' _ _ e => by
    obtain ⟨rfl, -⟩ := e
    exact h

/-- Behind an expression there is another token, so both runs read the same one. -/
structure ReplaysExpressions (n : Nat) : Prop where
  expression : ∀ n' {c w}, Rel c true w (Onward w) (expression n) (expression n')
  operand : ∀ n' p {c w}, Rel c true w (Onward w) (operand n p) (operand n' p)
  operators : ∀ n' p b {c w}, Rel c true w (Onward w) (operators n p b) (operators n' p b)
  leading : ∀ n' form b {c w}, (∃ k, leading? k = some form) →
    Rel c true w (Onward w) (leading n form b) (leading n' form b)
  trailing : ∀ n' form b {c w}, Rel c true w (Onward w) (trailing n form b) (trailing n' form b)
  items : ∀ n' close limit what {c w}, close ≠ .eof →
    Rel c true w (Onward w) (items n close limit what) (items n' close limit what)
  itemsFrom : ∀ n' limit count {c w},
    Rel c true w (Onward w) (itemsFrom n limit count) (itemsFrom n' limit count)

section Expressions

variable {n n' : Nat} {c : Seam} {w : World}

theorem replay_operand (ih : ReplaysExpressions n) (p : Precedence) :
    Rel c true w (Onward w) (operand (n + 1) p) (operand (n' + 1) p) := by
  rw [operand, operand]
  refine .advancing (.andThen inferInstance fun s => ?_) (.andThen inferInstance fun s => ?_) ?_
  · split <;> infer_instance
  · split <;> infer_instance
  refine .get fun s t e => ?_
  rw [e.previous.kind]
  split
  next => exact .ofNear (fails_report _)
  next form hf =>
    refine .seqIn (ih.leading n' form _ ⟨_, hf⟩) fun w₁ _ _ => ?_
    refine .seqIn (ih.operators n' p _) fun w₂ _ _ => ?_
    split
    · refine .bind (rel_accept _) fun w₃ _ b h => ?_
      obtain ⟨rfl, rfl⟩ := h
      split
      · exact .ofNear (fails_report _)
      · exact .pure ⟨.refl _, rfl⟩
    · exact .pure ⟨.refl _, rfl⟩

theorem replay_operators (ih : ReplaysExpressions n) (p : Precedence) (b : Bool) :
    Rel c true w (Onward w) (operators (n + 1) p b) (operators (n' + 1) p b) := by
  rw [operators, operators]
  refine .ahead (fun s => by split <;> infer_instance) fun s t e more => ?_
  rw [(e.current more).2.kind]
  split
  next => exact .pure ⟨.refl _, rfl⟩
  next form _ =>
    split
    · exact .advancing inferInstance inferInstance
        (.seqIn (ih.trailing n' form b) fun w₁ _ _ => ih.operators n' p b)
    · exact .pure ⟨.refl _, rfl⟩

theorem replay_leading (ih : ReplaysExpressions n) (form : Leading) (b : Bool)
    (hf : ∃ k, leading? k = some form) :
    Rel c true w (Onward w) (leading (n + 1) form b) (leading (n' + 1) form b) := by
  unfold Compile.leading
  cases form with
  | grouping =>
    exact .seqIn (ih.expression n') fun w₁ _ _ => (rel_consume (by simp) _).onward
  | array =>
    exact .seqIn (ih.items n' _ _ _ (by simp)) fun w₁ count _ => (rel_same rfl).onward
  | unary op =>
    refine .seqIn (ih.operand n' _) fun w₁ _ _ => (rel_same ?_).onward
    cases op <;> rfl
  | «variable» =>
    refine .get fun s t e => ?_
    rw [e.previous.lexeme]
    refine .andThen (rel_resolve _) fun w₁ p q h => ?_
    obtain ⟨below, read, assign⟩ := h
    refine Rel.since below ?_
    split
    · refine .bind (rel_accept _) fun w₂ _ b h => ?_
      obtain ⟨rfl, rfl⟩ := h
      split
      · refine .seqIn (ih.expression n') fun w₃ _ h => ?_
        exact (rel_emit (assign.imp h.level.constants)).onward
      · exact (rel_emit read).onward
    · exact (rel_emit read).onward
  | string =>
    refine .get fun s t e => ?_
    rw [e.previous.lexeme]
    refine .andThen (rel_intern _) fun w₁ r q h => ?_
    exact Rel.since h.1 (rel_emitConstant h.2.values fun _ e => by cases e)
  | number =>
    refine .get fun s t e => ?_
    rw [e.previous.lexeme]
    refine rel_emitConstant (.number _) fun x hx => ?_
    cases hx
    exact Numeral.unsigned_ofLiteral _
  | constant i =>
    refine (rel_same ?_).onward
    obtain ⟨k, hk⟩ := hf
    unfold leading? at hk
    split at hk <;> cases hk <;> rfl

theorem replay_trailing (ih : ReplaysExpressions n) (form : Trailing) (b : Bool) :
    Rel c true w (Onward w) (trailing (n + 1) form b) (trailing (n' + 1) form b) := by
  unfold Compile.trailing
  cases form with
  | call => exact .seqIn (ih.items n' _ _ _ (by simp)) fun w₁ count _ => (rel_same rfl).onward
  | index =>
    refine .seqIn (ih.expression n') fun w₁ _ _ => .stay (rel_consume (by simp) _) fun _ => ?_
    split
    · refine .bind (rel_accept _) fun w₂ _ b h => ?_
      obtain ⟨rfl, rfl⟩ := h
      split
      · exact .seqIn (ih.expression n') fun w₃ _ _ => (rel_same rfl).onward
      · exact (rel_same rfl).onward
    · exact (rel_same rfl).onward
  | binary op =>
    refine .seqIn (ih.operand n' _) fun w₁ _ _ => (rel_sameAll ?_).onward
    cases op <;> decide
  | and =>
    refine .jumping forward_jumpIfFalse fun w₁ past _ hj => .stay (rel_same rfl) fun _ => ?_
    exact .seqIn (ih.operand n' _) fun w₂ _ hw => (rel_land hw hj).onward
  | or =>
    refine .jumping forward_jumpIfFalse fun w₁ otherwise _ hj => ?_
    refine .jumping forward_jump fun w₂ past hw hp => .stay (rel_land hw hj) fun _ => ?_
    refine .stay (rel_same rfl) fun _ => ?_
    exact .seqIn (ih.operand n' _) fun w₃ _ hw => (rel_land hw hp).onward

theorem replay_items (ih : ReplaysExpressions n) (close : TokenKind) (limit : Limit)
    (what : Expectation) (hk : close ≠ .eof) :
    Rel c true w (Onward w) (items (n + 1) close limit what) (items (n' + 1) close limit what) := by
  rw [items, items]
  refine .bind (rel_check _) fun w' b _ h => ?_
  obtain ⟨rfl, rfl⟩ := h
  split
  · exact .stay (.pure ⟨rfl, rfl⟩) fun _ => .stay (rel_consume hk what) fun _ => .pure ⟨.refl _, rfl⟩
  · exact .seqIn (ih.itemsFrom n' limit 0) fun w₁ _ _ =>
      .stay (rel_consume hk what) fun _ => .pure ⟨.refl _, rfl⟩

theorem replay_itemsFrom (ih : ReplaysExpressions n) (limit : Limit) (count : Nat) :
    Rel c true w (Onward w) (itemsFrom (n + 1) limit count) (itemsFrom (n' + 1) limit count) := by
  rw [itemsFrom, itemsFrom]
  refine .seqIn (ih.expression n') fun w₁ _ _ => ?_
  split
  · exact .ofNear (fails_report _).bind
  · refine .bind (rel_accept _) fun w₂ b _ h => ?_
    obtain ⟨rfl, rfl⟩ := h
    split
    · exact ih.itemsFrom n' limit (count + 1)
    · exact .pure ⟨.refl _, rfl⟩

theorem replaysExpressions (n : Nat) : ReplaysExpressions n := by
  induction n with
  | zero => constructor <;> intros <;> exact .ofNear fails_outOfFuel
  | succ n ih =>
    constructor
    · rintro (_ | n') c w
      · exact .ofFar fails_outOfFuel
      · exact ih.operand n' .assignment
    · rintro (_ | n') p c w
      · exact .ofFar fails_outOfFuel
      · exact replay_operand ih p
    · rintro (_ | n') p b c w
      · exact .ofFar fails_outOfFuel
      · exact replay_operators ih p b
    · rintro (_ | n') form b c w hf
      · exact .ofFar fails_outOfFuel
      · exact replay_leading ih form b hf
    · rintro (_ | n') form b c w
      · exact .ofFar fails_outOfFuel
      · exact replay_trailing ih form b
    · rintro (_ | n') close limit what c w hk
      · exact .ofFar fails_outOfFuel
      · exact replay_items ih close limit what hk
    · rintro (_ | n') limit count c w
      · exact .ofFar fails_outOfFuel
      · exact replay_itemsFrom ih limit count

end Expressions

section Ends

set_option synthInstance.maxSize 5000

instance {α : Type} : Guards (outOfFuel : Compiler α) where
  more _ h := by cases h.1

instance guardExpressionStatement (n : Nat) : Guards (expressionStatement n) := by
  cases n <;> unfold expressionStatement <;> infer_instance

instance guardStatement (n : Nat) : Guards (statement n) := by
  cases n with
  | zero => unfold statement; infer_instance
  | succ n => unfold statement; infer_instance

instance guardBlock (n : Nat) : Guards (block n) := by
  induction n with
  | zero => unfold block; infer_instance
  | succ n ih => unfold block; infer_instance

end Ends

section Statements

set_option synthInstance.maxSize 5000

/-- The jump out of a loop, if there is one. -/
structure SameExit (w w' : World) (a b : Option Nat) : Prop where
  below : w.Below w'
  moved : b = a.map (w.level.lead.length + ·)
  jumps : ∀ o ∈ a, w'.level.jumps o

/-- A statement can be the last one of a source. -/
structure ReplaysStatements (n : Nat) : Prop where
  declaration : ∀ n' {c w}, Rel c false w (Onward w) (declaration n) (declaration n')
  functionDeclaration : ∀ n' {c w},
    Rel c false w (Onward w) (functionDeclaration n) (functionDeclaration n')
  variableDeclaration : ∀ n' {c w},
    Rel c false w (Onward w) (variableDeclaration n) (variableDeclaration n')
  function : ∀ n' {c w}, Rel c false w (Onward w) (function n) (function n')
  parameters : ∀ n' {c w}, Rel c true w (Onward w) (parameters n) (parameters n')
  statement : ∀ n' {c w}, Rel c false w (Onward w) (statement n) (statement n')
  block : ∀ n' {c w}, Rel c false w (Onward w) (block n) (block n')
  expressionStatement : ∀ n' {c w},
    Rel c false w (Onward w) (expressionStatement n) (expressionStatement n')
  returnStatement : ∀ n' {c w}, Rel c false w (Onward w) (returnStatement n) (returnStatement n')
  ifStatement : ∀ n' {c w}, Rel c false w (Onward w) (ifStatement n) (ifStatement n')
  whileStatement : ∀ n' {c w}, Rel c false w (Onward w) (whileStatement n) (whileStatement n')
  forStatement : ∀ n' {c w}, Rel c false w (Onward w) (forStatement n) (forStatement n')
  forInitializer : ∀ n' {c w}, Rel c false w (Onward w) (forInitializer n) (forInitializer n')
  forCondition : ∀ n' {c w}, Rel c false w (SameExit w) (forCondition n) (forCondition n')
  forIncrement : ∀ n' start {c w}, Rel c false w
    (fun w' a b => w.Below w' ∧ b = w.level.lead.length + a) (forIncrement n start)
    (forIncrement n' (w.level.lead.length + start))

variable {n n' : Nat} {c : Seam} {w : World}

/-- To remember where something starts. -/
theorem Rel.marking {α β : Type} {inside : Bool} {P : World → α → β → Prop} {f : Nat → Compiler α}
    {g : Nat → Compiler β} [∀ a, Keeps (f a)] [∀ a, Keeps (g a)]
    (hf : ∀ a, Rel c inside w P (f a) (g (w.level.lead.length + a))) :
    Rel c inside w P (here >>= f) (here >>= g) :=
  .andThen rel_here fun w' a b h => by
    obtain ⟨rfl, rfl⟩ := h
    exact hf a

theorem replay_declaration (ih : ReplaysStatements n) :
    Rel c false w (Onward w) (declaration (n + 1)) (declaration (n' + 1)) := by
  have calm {w : World} : Rel c false w (Onward w)
      (do if (← get).panicking then modify State.recover)
      (do if (← get).panicking then modify State.recover) := by
    refine .get fun s t e => ?_
    rw [e.steady.calm, e.steady'.calm]
    exact .pure ⟨.refl _, rfl⟩
  unfold Compile.declaration
  dsimp only
  refine .ifAccept (by simp) (.seq (ih.functionDeclaration n') fun w₁ _ _ => calm) ?_
  refine .ifAccept (by simp) (.seq (ih.variableDeclaration n') fun w₁ _ _ => calm) ?_
  exact .seq (ih.statement n') fun w₁ _ _ => calm

theorem replay_functionDeclaration (ih : ReplaysStatements n) : Rel c false w (Onward w)
    (functionDeclaration (n + 1)) (functionDeclaration (n' + 1)) := by
  unfold Compile.functionDeclaration
  refine .andThen (rel_newVariable _) fun w₁ k k' h => ?_
  obtain ⟨below, constants⟩ := h
  refine Rel.since below (.stay rel_makeReadable fun _ => ?_)
  refine .seq (ih.function n') fun w₂ _ hw => (rel_defineVariable fun shallow => ?_).onward
  exact hw.level.constants _ _ (constants (hw.level.depth ▸ shallow))

theorem replay_variableDeclaration : Rel c false w (Onward w) (variableDeclaration (n + 1))
    (variableDeclaration (n' + 1)) := by
  unfold Compile.variableDeclaration
  dsimp only
  refine .andThen (rel_newVariable _) fun w₁ k k' h => ?_
  obtain ⟨below, constants⟩ := h
  have rest {w₂ : World} (hw : w₁.Below w₂) : Rel c false w₂ (Onward w₂) (do
      consume (.punctuation .semicolon) .semicolonAfterDeclaration
      defineVariable k) (do
      consume (.punctuation .semicolon) .semicolonAfterDeclaration
      defineVariable k') := by
    refine .stay (rel_consume (by simp) _) fun _ => (rel_defineVariable fun shallow => ?_).onward
    exact hw.level.constants _ _ (constants (hw.level.depth ▸ shallow))
  refine Rel.since below (.ifAccept (by simp) ?_ ?_)
  · exact .seqIn ((replaysExpressions n).expression n') fun w₂ _ hw => rest hw
  · exact .stay (rel_same rfl) fun _ => rest (.refl _)

theorem replay_closeFunction {w₁ : World}
    (h : (w.nested.withLevel (w.nested.level.atDepth (w.nested.level.depth + 1))).Below w₁) :
    Rel c false w₁ (Onward w) closeFunction closeFunction := by
  obtain ⟨l, ls, hl, hls, outer⟩ := List.forall₂_cons_left_iff.1 h.outer
  refine .andThen (rel_endFunction h.level.lead outer) fun w₂ p p' e => ?_
  obtain ⟨f, captures⟩ := p
  obtain ⟨f', captures'⟩ := p'
  obtain ⟨rfl, same, rfl⟩ := e
  have below : w.Below { w₁ with level := l, outer := ls } := ⟨h.bridge, hl, hls⟩
  refine .andThen (rel_allocate same) fun w₃ r q e => ?_
  obtain ⟨further, pair⟩ := e
  refine .andThen (rel_addConstant (.object (.paired pair)) (by simp)) fun w₄ k k' e => ?_
  obtain ⟨further', constant⟩ := e
  refine Rel.since ((below.trans further).trans further') (.stay (rel_emit (.closure constant))
    fun _ => (rel_sameAll ?_).onward)
  simp [constant?]

theorem replay_function (ih : ReplaysStatements n) :
    Rel c false w (Onward w) (function (n + 1)) (function (n' + 1)) := by
  rw [function_succ, function_succ]
  dsimp only
  refine .get fun s t e => ?_
  rw [e.previous.lexeme]
  refine .andThen (rel_intern _) fun w₁ r q h => ?_
  refine Rel.since h.1 (.andThen (rel_beginFunction h.2) fun w₂ _ _ e => ?_)
  subst e
  refine .andThen rel_openScope fun w₂ _ _ e => ?_
  refine .andThen (rel_consume (by simp) _) fun w₃ _ _ e' => ?_
  obtain ⟨rfl, -⟩ := e'
  have body {w₄ : World} (h : w₃.Below w₄) : Rel c false w₄ (Onward w₁) (do
      consume (.punctuation .rightParen) .parenAfterParameters
      consume (.punctuation .leftBrace) .braceBeforeBody
      block n
      closeFunction) (do
      consume (.punctuation .rightParen) .parenAfterParameters
      consume (.punctuation .leftBrace) .braceBeforeBody
      block n'
      closeFunction) := by
    refine .andThen (rel_consume (by simp) _) fun w₅ _ _ e' => ?_
    obtain ⟨rfl, -⟩ := e'
    refine .andThen (rel_consume (by simp) _) fun w₆ _ _ e' => ?_
    obtain ⟨rfl, -⟩ := e'
    refine .andThen (ih.block n') fun w₇ _ _ e' => replay_closeFunction ?_
    exact e ▸ h.trans e'.1
  refine .bind (rel_check _) fun w₄ b _ e' => ?_
  obtain ⟨rfl, rfl⟩ := e'
  split
  · exact body (.refl _)
  · exact .bind (ih.parameters n') fun w₅ _ _ e' => body e'.1

theorem replay_parameters (ih : ReplaysStatements n) :
    Rel c true w (Onward w) (parameters (n + 1)) (parameters (n' + 1)) := by
  unfold Compile.parameters
  dsimp only
  refine .stay (.modify fun s t e => ?_) fun _ => .get fun s t e => ?_
  · have draft := e.drafts.uncons.1
    refine ⟨w, e.redraft (l := w.level) ⟨draft.kind, draft.name, ?_, draft.locals, draft.captures,
      draft.depth, draft.depth', draft.chunk⟩, rfl, rfl⟩
    rw [draft.arity]
  have rest : Rel c true w (Onward w) (do
      let global ← newVariable .parameterName
      defineVariable global
      if ← accept (.punctuation .comma) then
        parameters n) (do
      let global ← newVariable .parameterName
      defineVariable global
      if ← accept (.punctuation .comma) then
        parameters n') := by
    refine .andThen (rel_newVariable _) fun w₁ k k' h => ?_
    refine Rel.since h.1 (.stay (rel_defineVariable h.2) fun _ => ?_)
    exact .ifAccept (by simp) (ih.parameters n') (.pure ⟨.refl _, rfl⟩)
  rw [e.drafts.uncons.1.arity]
  split
  · exact .ofNear (Fails.bind fun _ _ _ hs => not_runs_reportCurrent hs)
  · exact rest

theorem replay_statement (ih : ReplaysStatements n) :
    Rel c false w (Onward w) (statement (n + 1)) (statement (n' + 1)) := by
  unfold Compile.statement
  refine .ifAccept (by simp) ?_ (.ifAccept (by simp) (ih.forStatement n') (.ifAccept (by simp)
    (ih.ifStatement n') (.ifAccept (by simp) (ih.returnStatement n') (.ifAccept (by simp)
      (ih.whileStatement n') (.ifAccept (by simp) ?_ (ih.expressionStatement n'))))))
  · exact .seqIn ((replaysExpressions n).expression n') fun w₁ _ _ =>
      .stay (rel_consume (by simp) _) fun _ => (rel_same rfl).onward
  · refine .andThen rel_openScope fun w₁ _ _ e => ?_
    subst e
    refine .andThen (ih.block n') fun w₂ _ _ h => ?_
    exact rel_closeScope.weaken fun w₃ _ _ e => ⟨e ▸ h.1.closed, rfl⟩

theorem replay_block (ih : ReplaysStatements n) :
    Rel c false w (Onward w) (block (n + 1)) (block (n' + 1)) := by
  unfold Compile.block
  refine .bind (rel_check _) fun w₁ b _ h => .bind (rel_check _) fun w₂ b' _ h' => ?_
  obtain ⟨rfl, rfl⟩ := h
  obtain ⟨rfl, rfl⟩ := h'
  split
  · exact (rel_consume (by simp) _).onward
  · exact .seq (ih.declaration n') fun w₁ _ _ => ih.block n'

theorem replay_expressionStatement :
    Rel c false w (Onward w) (expressionStatement (n + 1)) (expressionStatement (n' + 1)) := by
  unfold Compile.expressionStatement
  exact .seqIn ((replaysExpressions n).expression n') fun w₁ _ _ =>
    .stay (rel_consume (by simp) _) fun _ => (rel_same rfl).onward

theorem rel_emitReturn : Rel c false w (Same w) emitReturn emitReturn :=
  .andThen (rel_same rfl) fun w₁ _ _ e => by
    obtain ⟨rfl, -⟩ := e
    exact rel_same rfl

theorem replay_returnStatement :
    Rel c false w (Onward w) (returnStatement (n + 1)) (returnStatement (n' + 1)) := by
  unfold Compile.returnStatement
  dsimp only
  refine .get fun s t e => ?_
  rw [e.drafts.uncons.1.kind]
  split
  · exact .ofNear (fails_report _).bind
  · refine .ifAccept (by simp) rel_emitReturn.onward ?_
    exact .seqIn ((replaysExpressions n).expression n') fun w₁ _ _ =>
      .stay (rel_consume (by simp) _) fun _ => (rel_same rfl).onward

theorem replay_ifStatement (ih : ReplaysStatements n) :
    Rel c false w (Onward w) (ifStatement (n + 1)) (ifStatement (n' + 1)) := by
  unfold Compile.ifStatement
  dsimp only
  refine .stay (rel_consume (by simp) _) fun _ => ?_
  refine .seqIn ((replaysExpressions n).expression n') fun w₁ _ _ =>
    .stay (rel_consume (by simp) _) fun _ => ?_
  refine .jumping forward_jumpIfFalse fun w₂ otherwise _ ho => .stay (rel_same rfl) fun _ => ?_
  refine .seq (ih.statement n') fun w₃ _ hw => ?_
  refine .jumping forward_jump fun w₄ past hw' hp => .stay (rel_land (hw.trans hw') ho) fun _ => ?_
  refine .stay (rel_same rfl) fun _ => .stay rel_acceptElse fun more => ?_
  split
  · exact .seq (ih.statement n') fun w₅ _ hw => (rel_land hw hp).onward
  · exact (rel_land (.refl _) hp).onward

theorem replay_whileStatement (ih : ReplaysStatements n) :
    Rel c false w (Onward w) (whileStatement (n + 1)) (whileStatement (n' + 1)) := by
  unfold Compile.whileStatement
  refine .marking fun start => .stay (rel_consume (by simp) _) fun _ => ?_
  refine .seqIn ((replaysExpressions n).expression n') fun w₁ _ h₁ =>
    .stay (rel_consume (by simp) _) fun _ => ?_
  refine .jumping forward_jumpIfFalse fun w₂ exit h₂ hj => .stay (rel_same rfl) fun _ => ?_
  refine .seq (ih.statement n') fun w₃ _ h₃ => ?_
  refine .stay (rel_back ((h₁.trans h₂).trans h₃) start) fun _ => ?_
  exact .stay (rel_land h₃ hj) fun _ => (rel_same rfl).onward

theorem replay_forInitializer (ih : ReplaysStatements n) :
    Rel c false w (Onward w) (forInitializer (n + 1)) (forInitializer (n' + 1)) := by
  unfold Compile.forInitializer
  exact .ifAccept (by simp) (.pure ⟨.refl _, rfl⟩) (.ifAccept (by simp)
    (ih.variableDeclaration n') (ih.expressionStatement n'))

theorem replay_forCondition :
    Rel c false w (SameExit w) (forCondition (n + 1)) (forCondition (n' + 1)) := by
  unfold Compile.forCondition
  refine .ifAccept (by simp) (.pure ⟨.refl _, rfl, by simp⟩) ?_
  refine .bind ((replaysExpressions n).expression n') fun w₁ _ _ h => ?_
  refine .andThen (rel_consume (by simp) _) fun w₂ _ _ e => ?_
  obtain ⟨rfl, -⟩ := e
  refine .andThen (rel_emitJump forward_jumpIfFalse) fun w₃ exit _ e => ?_
  obtain ⟨rfl, rfl⟩ := e
  have below := World.below_withLevel (w₂.level.below_withJump exit)
  refine .andThen (rel_same rfl) fun w₄ _ _ e => ?_
  obtain ⟨rfl, -⟩ := e
  refine .pure ⟨h.1.trans below, ?_, fun o ho => ?_⟩
  · rw [h.1.level.lead]
    rfl
  · cases ho
    exact .inr rfl

theorem replay_forIncrement (start : Nat) : Rel c false w
    (fun w' a b => w.Below w' ∧ b = w.level.lead.length + a) (forIncrement (n + 1) start)
    (forIncrement (n' + 1) (w.level.lead.length + start)) := by
  rw [forIncrement, forIncrement]
  refine .ifAccept (by simp) (.pure ⟨.refl _, rfl⟩) ?_
  refine .andThen (rel_emitJump forward_jump) fun w₁ body _ e => ?_
  obtain ⟨rfl, rfl⟩ := e
  have below := World.below_withLevel (w.level.below_withJump body)
  have jumps : (w.withLevel (w.level.withJump body)).level.jumps body := .inr rfl
  generalize w.withLevel (w.level.withJump body) = w₁ at below jumps
  refine .marking fun increment => ?_
  refine .bind ((replaysExpressions n).expression n') fun w₂ _ _ h => ?_
  refine .andThen (rel_same rfl) fun w₃ _ _ e => ?_
  obtain ⟨rfl, -⟩ := e
  refine .andThen (rel_consume (by simp) _) fun w₃ _ _ e => ?_
  obtain ⟨rfl, -⟩ := e
  refine .andThen (rel_back (below.trans h.1) start) fun w₃ _ _ e => ?_
  obtain ⟨rfl, -⟩ := e
  rw [← below.level.lead]
  refine .andThen (rel_land h.1 jumps) fun w₃ _ _ e => ?_
  obtain ⟨rfl, -⟩ := e
  exact .pure ⟨below.trans h.1, rfl⟩

theorem replay_leaveLoop {exit exit' : Option Nat} {w₁ w₂ : World} (h : SameExit w₁ w₂ exit exit') :
    Rel c false w₂ (fun w' _ _ => w' = w₂.withLevel (w₂.level.atDepth (w₂.level.depth - 1)))
      (leaveLoop exit) (leaveLoop exit') := by
  obtain ⟨below, rfl, jumps⟩ := h
  unfold leaveLoop
  cases exit with
  | none => exact rel_closeScope
  | some exit =>
    rw [← below.level.lead]
    dsimp only
    refine .andThen (rel_landJump (jumps exit rfl)) fun w₃ _ _ e => ?_
    obtain ⟨rfl, -⟩ := e
    refine .andThen (rel_same rfl) fun w₃ _ _ e => ?_
    obtain ⟨rfl, -⟩ := e
    exact rel_closeScope

theorem replay_forStatement (ih : ReplaysStatements n) :
    Rel c false w (Onward w) (forStatement (n + 1)) (forStatement (n' + 1)) := by
  rw [forStatement_succ, forStatement_succ]
  refine .andThen rel_openScope fun w₁ _ _ e => ?_
  subst e
  refine .andThen (rel_consume (by simp) _) fun w₁ _ _ e => ?_
  obtain ⟨rfl, -⟩ := e
  refine .andThen (ih.forInitializer n') fun w₂ _ _ h => .marking fun start => ?_
  refine .andThen (ih.forCondition n') fun w₃ exit exit' same => ?_
  rw [← same.below.level.lead]
  refine .andThen (ih.forIncrement n' start) fun w₄ again _ e => ?_
  obtain ⟨below, rfl⟩ := e
  rw [← below.level.lead]
  refine .andThen (ih.statement n') fun w₅ _ _ h' => ?_
  rw [← h'.1.level.lead]
  refine .andThen (rel_emitBackJump again) fun w₆ _ _ e => ?_
  obtain ⟨rfl, -⟩ := e
  have leaves : SameExit w₂ w₆ exit exit' :=
    ⟨(same.below.trans below).trans h'.1, same.moved,
      fun o ho => (below.trans h'.1).level.jumps o (same.jumps o ho)⟩
  refine (replay_leaveLoop leaves).weaken fun w₇ _ _ e => ⟨?_, rfl⟩
  exact e ▸ (((h.1.trans same.below).trans below).trans h'.1).closed

theorem replaysStatements (n : Nat) : ReplaysStatements n := by
  induction n with
  | zero => constructor <;> intros <;> exact .ofNear fails_outOfFuel
  | succ n ih =>
    constructor
    · rintro (_ | n') c w
      · exact .ofFar fails_outOfFuel
      · exact replay_declaration ih
    · rintro (_ | n') c w
      · exact .ofFar fails_outOfFuel
      · exact replay_functionDeclaration ih
    · rintro (_ | n') c w
      · exact .ofFar fails_outOfFuel
      · exact replay_variableDeclaration
    · rintro (_ | n') c w
      · exact .ofFar fails_outOfFuel
      · exact replay_function ih
    · rintro (_ | n') c w
      · exact .ofFar fails_outOfFuel
      · exact replay_parameters ih
    · rintro (_ | n') c w
      · exact .ofFar fails_outOfFuel
      · exact replay_statement ih
    · rintro (_ | n') c w
      · exact .ofFar fails_outOfFuel
      · exact replay_block ih
    · rintro (_ | n') c w
      · exact .ofFar fails_outOfFuel
      · exact replay_expressionStatement
    · rintro (_ | n') c w
      · exact .ofFar fails_outOfFuel
      · exact replay_returnStatement
    · rintro (_ | n') c w
      · exact .ofFar fails_outOfFuel
      · exact replay_ifStatement ih
    · rintro (_ | n') c w
      · exact .ofFar fails_outOfFuel
      · exact replay_whileStatement ih
    · rintro (_ | n') c w
      · exact .ofFar fails_outOfFuel
      · exact replay_forStatement ih
    · rintro (_ | n') c w
      · exact .ofFar fails_outOfFuel
      · exact replay_forInitializer ih
    · rintro (_ | n') c w
      · exact .ofFar fails_outOfFuel
      · exact replay_forCondition
    · rintro (_ | n') start c w
      · exact .ofFar fails_outOfFuel
      · exact replay_forIncrement start

end Statements

end Compile
end StackScript
