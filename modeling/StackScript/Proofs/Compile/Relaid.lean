import StackScript.Proofs.Compile.Ending
import StackScript.Proofs.Compile.Unplaced
import StackScript.Proofs.Syntax.Respaced

/-!
# StackScript.Proofs.Compile.Relaid

Two sources with the same tokens in other places.

* `blindExpressions`, `blindStatements`: no production looks at places or lines, by induction on the
  recursion budget.
* `Compilation.unplaced`: what was compiled, without places and lines.
* `worded`: a token by its kind and what it says.
* `compile_relaid`: blanks, comments and line breaks change nothing else.
-/

namespace StackScript
namespace Compile

section Productions

set_option synthInstance.maxSize 5000

/-- The productions of expressions, for one recursion budget. -/
class BlindExpressions (n : Nat) : Prop where
  expression : Blind (expression n)
  operand : ∀ p, Blind (operand n p)
  operators : ∀ p b, Blind (operators n p b)
  leading : ∀ form b, Blind (leading n form b)
  trailing : ∀ form b, Blind (trailing n form b)
  items : ∀ close limit what, Blind (items n close limit what)
  itemsFrom : ∀ limit count, Blind (itemsFrom n limit count)

attribute [instance] BlindExpressions.expression BlindExpressions.operand
  BlindExpressions.operators BlindExpressions.leading BlindExpressions.trailing
  BlindExpressions.items BlindExpressions.itemsFrom

variable {n : Nat}

theorem blind_leading [BlindExpressions n] (form : Leading) (assignable : Bool) :
    Blind (leading (n + 1) form assignable) := by
  have literal (lexeme : String) : Blind (do
      let r ← intern (String.ofList (lexeme.toList.drop 1).dropLast)
      emitConstant (.object r)) := inferInstance
  have variable_ (lexeme : String) : Blind (do
      let place ← resolve lexeme
      if assignable then
        if ← accept (.punctuation .equal) then
          expression n
          emit place.assign
        else
          emit place.read
      else
        emit place.read) := inferInstance
  unfold Compile.leading
  split
  · infer_instance
  · infer_instance
  · infer_instance
  · exact .reads (fun s => s.previous.lexeme) (fun _ => rfl) variable_
  · exact .reads (fun s => s.previous.lexeme) (fun _ => rfl) literal
  · exact .reads (fun s => s.previous.lexeme) (fun _ => rfl) fun lexeme =>
      (inferInstance : Blind (emitConstant (.number (Numeral.ofLiteral lexeme))))
  · infer_instance

instance blindExpressions (n : Nat) : BlindExpressions n := by
  induction n with
  | zero =>
    constructor <;> intros <;>
      simp only [Compile.expression, Compile.operand, Compile.operators, Compile.leading,
        Compile.trailing, Compile.items, Compile.itemsFrom] <;> infer_instance
  | succ n ih =>
    constructor
    · unfold Compile.expression; infer_instance
    · intro p
      unfold Compile.operand
      refine .andThen inferInstance fun _ => .get fun s t same => ?_
      have kind : s.previous.kind = t.previous.kind := congrArg (·.previous.kind) same
      rw [kind]
      split <;> exact Blind.coincide
    · intro p assignable
      unfold Compile.operators
      refine .get fun s t same => ?_
      have kind : s.current.kind = t.current.kind := congrArg (·.current.kind) same
      rw [kind]
      split <;> exact Blind.coincide
    · exact blind_leading
    · intro form b
      unfold Compile.trailing
      split <;> infer_instance
    · intro close limit what
      unfold Compile.items; infer_instance
    · intro limit count
      unfold Compile.itemsFrom
      dsimp only
      infer_instance

/-- The productions of statements, for one recursion budget. -/
class BlindStatements (n : Nat) : Prop where
  declaration : Blind (declaration n)
  functionDeclaration : Blind (functionDeclaration n)
  variableDeclaration : Blind (variableDeclaration n)
  function : Blind (function n)
  parameters : Blind (parameters n)
  statement : Blind (statement n)
  block : Blind (block n)
  expressionStatement : Blind (expressionStatement n)
  returnStatement : Blind (returnStatement n)
  ifStatement : Blind (ifStatement n)
  whileStatement : Blind (whileStatement n)
  forStatement : Blind (forStatement n)
  forInitializer : Blind (forInitializer n)
  forCondition : Blind (forCondition n)
  forIncrement : ∀ start, Blind (forIncrement n start)

attribute [instance] BlindStatements.declaration BlindStatements.functionDeclaration
  BlindStatements.variableDeclaration BlindStatements.function BlindStatements.parameters
  BlindStatements.statement BlindStatements.block BlindStatements.expressionStatement
  BlindStatements.returnStatement BlindStatements.ifStatement BlindStatements.whileStatement
  BlindStatements.forStatement BlindStatements.forInitializer BlindStatements.forCondition
  BlindStatements.forIncrement

theorem blind_declaration [BlindStatements n] : Blind (declaration (n + 1)) := by
  have recovering : Blind (do if (← get).panicking then modify State.recover : Compiler Unit) :=
    .reads (fun s => s.panicking) (fun _ => rfl) fun panicking => (inferInstance :
      Blind (if panicking then modify State.recover else pure () : Compiler Unit))
  rw [declaration_succ]
  unfold construct
  infer_instance

theorem blind_function [BlindStatements n] : Blind (function (n + 1)) := by
  have body (name : String) : Blind (do
      beginFunction (← intern name)
      openScope
      consume (.punctuation .leftParen) .parenAfterFunctionName
      unless ← check (.punctuation .rightParen) do
        parameters n
      consume (.punctuation .rightParen) .parenAfterParameters
      consume (.punctuation .leftBrace) .braceBeforeBody
      block n
      closeFunction) := by
    dsimp only
    infer_instance
  rw [function_succ]
  exact .reads (fun s => s.previous.lexeme) (fun _ => rfl) body

theorem blind_parameters [BlindStatements n] : Blind (parameters (n + 1)) := by
  have counts : Blind (modify fun s : State =>
      { s with draft := { s.draft with arity := s.draft.arity + 1 } }) := .modify fun _ => rfl
  have others (arity : Nat) : Blind (do
      if countLimit < arity then
        reportCurrent (.exceeded .parameters)
      let global ← newVariable .parameterName
      defineVariable global
      if ← accept (.punctuation .comma) then
        parameters n) := by
    dsimp only
    infer_instance
  unfold Compile.parameters
  exact .andThen counts fun _ => .reads (fun s => s.draft.arity) (fun _ => rfl) others

theorem blind_returnStatement [BlindStatements n] : Blind (returnStatement (n + 1)) := by
  have others (kind : BodyKind) : Blind (do
      if kind = .script then
        report .returnFromScript
      if ← accept (.punctuation .semicolon) then
        emitReturn
      else
        expression n
        consume (.punctuation .semicolon) .semicolonAfterReturn
        emit .ret) := by
    dsimp only
    infer_instance
  unfold Compile.returnStatement
  exact .reads (fun s => s.draft.kind) (fun _ => rfl) others

instance blindStatements (n : Nat) : BlindStatements n := by
  induction n with
  | zero =>
    constructor <;> intros <;>
      simp only [Compile.declaration, Compile.functionDeclaration, Compile.variableDeclaration,
        Compile.function, Compile.parameters, Compile.statement, Compile.block,
        Compile.expressionStatement, Compile.returnStatement, Compile.ifStatement,
        Compile.whileStatement, Compile.forStatement, Compile.forInitializer,
        Compile.forCondition, Compile.forIncrement] <;> infer_instance
  | succ n ih =>
    constructor
    · exact blind_declaration
    · unfold Compile.functionDeclaration; infer_instance
    · unfold Compile.variableDeclaration; infer_instance
    · exact blind_function
    · exact blind_parameters
    · unfold Compile.statement; infer_instance
    · unfold Compile.block; infer_instance
    · unfold Compile.expressionStatement; infer_instance
    · exact blind_returnStatement
    · unfold Compile.ifStatement
      dsimp only
      infer_instance
    · unfold Compile.whileStatement; infer_instance
    · rw [forStatement_succ]; infer_instance
    · unfold Compile.forInitializer; infer_instance
    · unfold Compile.forCondition; infer_instance
    · intro start
      rw [Compile.forIncrement]; infer_instance

instance blindDeclarations (n : Nat) : Blind (declarations n) := by
  induction n with
  | zero => unfold declarations; infer_instance
  | succ n ih => unfold declarations; infer_instance

theorem coincide_script (n : Nat) : Coincide Function.unlined (script n) (script n) := by
  unfold script
  exact .after inferInstance fun _ => .after inferInstance fun _ =>
    coincide_endFunction.bind fun _ _ same => .pure (Prod.mk.inj same).1

end Productions

/-- What was compiled, without the places of faulty tokens and without the lines of functions. -/
def Compilation.unplaced (c : Compilation) : Compilation :=
  { result := c.result.mapError (·.map Error.unplaced), heap := c.heap.unlined,
    summaries := c.summaries }

theorem Compilation.unplaced_ofState (f : Function) (s : State) :
    (Compilation.ofState f s).unplaced = .ofState f.unlined s.erase := by
  have errors : s.erase.errors = s.errors.map Error.unplaced := rfl
  unfold Compilation.ofState
  have empty : (s.errors.map Error.unplaced).isEmpty = s.errors.isEmpty := by
    simp only [Array.isEmpty, Array.size_map]
  rw [errors, empty]
  split
  · have allocated : s.erase.heap.allocate (.function f.unlined) = _ :=
      s.heap.allocate_unlined (.function f)
    rw [allocated]
    rfl
  · simp only [Compilation.unplaced, Except.mapError, Array.toList_map]
    rfl

/-- Two lists of tokens that say the same are compiled to the same, places and lines apart. -/
theorem compileWithin_unplaced {ts us : List Token}
    (same : ts.map Token.unplaced = us.map Token.unplaced) (n : Nat) (heap : Heap) :
    (compileWithin n ts heap).map Compilation.unplaced =
      (compileWithin n us heap).map Compilation.unplaced := by
  have start : (State.new ts heap).erase = (State.new us heap).erase := by
    simp only [State.erase, State.new, same]
  have seen (tokens : List Token) : (compileWithin n tokens heap).map Compilation.unplaced =
      ((script n (.new tokens heap)).map (Prod.map Function.unlined State.erase)).map
        fun p => .ofState p.1 p.2 := by
    rw [compileWithin, Option.map_map, Option.map_map]
    exact congrArg (Option.map · _) (funext fun p => Compilation.unplaced_ofState p.1 p.2)
  rw [seen, seen, coincide_script n _ _ start]

theorem compile_unplaced {a b : String}
    (same : (Lexical.scan a).map Token.unplaced = (Lexical.scan b).map Token.unplaced)
    (heap : Heap) : (compile a heap).unplaced = (compile b heap).unplaced := by
  have within (source : String) : (compile source heap).unplaced =
      ((compileWithin (budget (Lexical.scan source)) (Lexical.scan source) heap).map
        Compilation.unplaced).getD ⟨.error [], heap.unlined, []⟩ := by
    rw [compile]
    cases compileWithin (budget (Lexical.scan source)) (Lexical.scan source) heap <;> rfl
  have length : (Lexical.scan a).length = (Lexical.scan b).length := by
    simpa using congrArg List.length same
  rw [within, within, compileWithin_unplaced same, budget, budget, length]

/-- Kind and wording of a token. -/
def worded (t : Token) : TokenKind × String := (t.kind, t.wording)

theorem map_unplaced_of_worded {ts us : List Token} (h : ts.map worded = us.map worded) :
    ts.map Token.unplaced = us.map Token.unplaced := by
  have same (ts : List Token) : ts.map Token.unplaced =
      (ts.map worded).map fun p => ⟨p.1, p.2, .start⟩ := by
    rw [List.map_map]
    rfl
  rw [same, same, h]

/-- Layout shows in places and lines only. Tokens with single blanks between them are scanned as
they were; and two sources whose tokens say the same, faults included, compile to the same on any
heap: both to the same script or both to the same errors, with the same strings and functions. -/
theorem compile_relaid (a : String) :
    ((∀ t ∈ Lexical.scan a, ∀ f, t.kind ≠ .fault f) →
      (Lexical.scan (Lexical.respaced a)).map Lexical.bare = (Lexical.scan a).map Lexical.bare) ∧
    ∀ b, (Lexical.scan a).map worded = (Lexical.scan b).map worded →
      ∀ heap, (compile a heap).unplaced = (compile b heap).unplaced :=
  ⟨Lexical.scan_respaced, fun _ same heap => compile_unplaced (map_unplaced_of_worded same) heap⟩

/-- A comment and a line break inside a statement, and two faults that cover different text, on a
new machine's empty heap. -/
theorem compile_relaid_comment :
    let (a, b) := ("print// one\n1\n;", "print 1 ;")
    let (c, d) := ("x @;", "x\n#;")
    (∀ t ∈ Lexical.scan a, ∀ f, t.kind ≠ .fault f) ∧ Lexical.respaced a = b ∧
      (Lexical.scan b).map Lexical.bare = (Lexical.scan a).map Lexical.bare ∧
      (compile a .empty).unplaced = (compile b .empty).unplaced ∧
      (Lexical.scan c).map Lexical.bare ≠ (Lexical.scan d).map Lexical.bare ∧
      (compile c .empty).unplaced = (compile d .empty).unplaced := by
  have same : (Lexical.scan "print// one\n1\n;").map worded =
      (Lexical.scan "print 1 ;").map worded := by decide +kernel
  have faulty : (Lexical.scan "x @;").map worded = (Lexical.scan "x\n#;").map worded := by
    decide +kernel
  have proper : ∀ t ∈ Lexical.scan "print// one\n1\n;", ∀ f, t.kind ≠ .fault f := by
    have kinds : (Lexical.scan "print// one\n1\n;").map Token.kind =
      [.keyword .print, .number, .punctuation .semicolon, .eof] := by decide +kernel
    intro t ht f fault
    have member := List.mem_map_of_mem (f := Token.kind) ht
    simp [kinds, fault] at member
  have spaced : Lexical.respaced "print// one\n1\n;" = "print 1 ;" := by decide +kernel
  have ⟨again, compiled⟩ := compile_relaid "print// one\n1\n;"
  exact ⟨proper, spaced, spaced ▸ again proper, compiled _ same _, by decide +kernel,
    (compile_relaid "x @;").2 _ faulty _⟩

end Compile
end StackScript
