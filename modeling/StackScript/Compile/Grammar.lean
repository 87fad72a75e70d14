import StackScript.Compile.State
import StackScript.Lexical.Scan

/-!
# StackScript.Compile.Grammar

The grammar, compiled while it is read. Statements follow the first token; expressions climb by
precedence. Each production is given a recursion budget and hands a smaller one on; `budget` is
enough for a list of tokens, because every production reads a token after a bounded number of
others.

* `script`: the productions from the top.
* `compile`: a source compiled onto a heap. Strings and functions of a source with errors stay on
  the heap.
-/

namespace StackScript
namespace Compile

mutual

/-- An expression of the lowest precedence. -/
def expression : Nat → Compiler Unit
  | 0 => outOfFuel
  | n + 1 => operand n .assignment

/-- An expression whose operators bind at least as tightly as `p`. -/
def operand : Nat → Precedence → Compiler Unit
  | 0, _ => outOfFuel
  | n + 1, p => do
    advance
    match leading? (← get).previous.kind with
    | none => report (.expected .expression)
    | some form =>
      let assignable := decide (p ≤ .assignment)
      leading n form assignable
      operators n p assignable
      if assignable then
        if ← accept (.punctuation .equal) then
          report .assignmentTarget

/-- The operators behind an operand. -/
def operators : Nat → Precedence → Bool → Compiler Unit
  | 0, _, _ => outOfFuel
  | n + 1, p, assignable => do
    match trailing? (← get).current.kind with
    | none => pure ()
    | some form =>
      if p ≤ form.precedence then
        advance
        trailing n form assignable
        operators n p assignable

/-- The rest of an expression after the token that begins it. -/
def leading : Nat → Leading → Bool → Compiler Unit
  | 0, _, _ => outOfFuel
  | n + 1, form, assignable =>
    match form with
    | .grouping => do
      expression n
      consume (.punctuation .rightParen) .parenAfterExpression
    | .array => do
      let count ← items n (.punctuation .rightBracket) .elements .bracketAfterElements
      emit (.array count)
    | .unary op => do
      operand n .unary
      emit op.code
    | .variable => do
      let place ← resolve (← get).previous.lexeme
      if assignable then
        if ← accept (.punctuation .equal) then
          expression n
          emit place.assign
        else
          emit place.read
      else
        emit place.read
    | .string => do
      let lexeme := (← get).previous.lexeme
      let r ← intern (String.ofList (lexeme.toList.drop 1).dropLast)
      emitConstant (.object r)
    | .number => do
      emitConstant (.number (Numeral.ofLiteral (← get).previous.lexeme))
    | .constant i => emit i

/-- The rest of an operation after its operator. -/
def trailing : Nat → Trailing → Bool → Compiler Unit
  | 0, _, _ => outOfFuel
  | n + 1, form, assignable =>
    match form with
    | .call => do
      let count ← items n (.punctuation .rightParen) .arguments .parenAfterArguments
      emit (.call count)
    | .index => do
      expression n
      consume (.punctuation .rightBracket) .bracketAfterIndex
      if assignable then
        if ← accept (.punctuation .equal) then
          expression n
          emit .setIndex
        else
          emit .getIndex
      else
        emit .getIndex
    | .binary op => do
      operand n op.precedence.next
      emitAll op.code
    | .and => do
      let past ← emitJump .jumpIfFalse
      emit .pop
      operand n .conjunction
      landJump past
    | .or => do
      let otherwise ← emitJump .jumpIfFalse
      let past ← emitJump .jump
      landJump otherwise
      emit .pop
      operand n .disjunction
      landJump past

/-- Expressions between commas up to a closing token; gives their number. -/
def items : Nat → TokenKind → Limit → Expectation → Compiler UInt8
  | 0, _, _, _ => outOfFuel
  | n + 1, close, limit, what => do
    let count ← if ← check close then pure 0 else itemsFrom n limit 0
    consume close what
    return (min count countLimit).toUInt8

/-- One more expression and those behind it, after `count` others. -/
def itemsFrom : Nat → Limit → Nat → Compiler Nat
  | 0, _, _ => outOfFuel
  | n + 1, limit, count => do
    expression n
    if count = countLimit then
      report (.exceeded limit)
    if ← accept (.punctuation .comma) then
      itemsFrom n limit (count + 1)
    else
      return count + 1

end

mutual

/-- A declaration or a statement; behind an error, the way to the next one. -/
def declaration : Nat → Compiler Unit
  | 0 => outOfFuel
  | n + 1 => do
    if ← accept (.keyword .fun) then
      functionDeclaration n
    else if ← accept (.keyword .var) then
      variableDeclaration n
    else
      statement n
    if (← get).panicking then
      modify State.recover

/-- A function can call itself, so its name is known in its body. -/
def functionDeclaration : Nat → Compiler Unit
  | 0 => outOfFuel
  | n + 1 => do
    let global ← newVariable .functionName
    makeReadable
    function n
    defineVariable global

def variableDeclaration : Nat → Compiler Unit
  | 0 => outOfFuel
  | n + 1 => do
    let global ← newVariable .variableName
    if ← accept (.punctuation .equal) then
      expression n
    else
      emit .pushNil
    consume (.punctuation .semicolon) .semicolonAfterDeclaration
    defineVariable global

/-- The parameters and the body of the function that was just named. -/
def function : Nat → Compiler Unit
  | 0 => outOfFuel
  | n + 1 => do
    beginFunction (← intern (← get).previous.lexeme)
    openScope
    consume (.punctuation .leftParen) .parenAfterFunctionName
    unless ← check (.punctuation .rightParen) do
      parameters n
    consume (.punctuation .rightParen) .parenAfterParameters
    consume (.punctuation .leftBrace) .braceBeforeBody
    block n
    let (f, captures) ← endFunction
    let r ← allocate (.function f)
    emit (.closure (← addConstant (.object r)))
    emitAll (captures.toList.map .capture)

/-- One more parameter and those behind it. -/
def parameters : Nat → Compiler Unit
  | 0 => outOfFuel
  | n + 1 => do
    modify fun s => { s with draft := { s.draft with arity := s.draft.arity + 1 } }
    if countLimit < (← get).draft.arity then
      reportCurrent (.exceeded .parameters)
    let global ← newVariable .parameterName
    defineVariable global
    if ← accept (.punctuation .comma) then
      parameters n

def statement : Nat → Compiler Unit
  | 0 => outOfFuel
  | n + 1 => do
    if ← accept (.keyword .print) then
      expression n
      consume (.punctuation .semicolon) .semicolonAfterValue
      emit .print
    else if ← accept (.keyword .for) then
      forStatement n
    else if ← accept (.keyword .if) then
      ifStatement n
    else if ← accept (.keyword .return) then
      returnStatement n
    else if ← accept (.keyword .while) then
      whileStatement n
    else if ← accept (.punctuation .leftBrace) then
      openScope
      block n
      closeScope
    else
      expressionStatement n

/-- Declarations up to a closing brace. -/
def block : Nat → Compiler Unit
  | 0 => outOfFuel
  | n + 1 => do
    if (← check (.punctuation .rightBrace)) || (← check .eof) then
      consume (.punctuation .rightBrace) .braceAfterBlock
    else
      declaration n
      block n

def expressionStatement : Nat → Compiler Unit
  | 0 => outOfFuel
  | n + 1 => do
    expression n
    consume (.punctuation .semicolon) .semicolonAfterExpression
    emit .pop

def returnStatement : Nat → Compiler Unit
  | 0 => outOfFuel
  | n + 1 => do
    if (← get).draft.kind = .script then
      report .returnFromScript
    if ← accept (.punctuation .semicolon) then
      emitReturn
    else
      expression n
      consume (.punctuation .semicolon) .semicolonAfterReturn
      emit .ret

def ifStatement : Nat → Compiler Unit
  | 0 => outOfFuel
  | n + 1 => do
    consume (.punctuation .leftParen) .parenAfterIf
    expression n
    consume (.punctuation .rightParen) .parenAfterCondition
    let otherwise ← emitJump .jumpIfFalse
    emit .pop
    statement n
    let past ← emitJump .jump
    landJump otherwise
    emit .pop
    if ← accept (.keyword .else) then
      statement n
    landJump past

def whileStatement : Nat → Compiler Unit
  | 0 => outOfFuel
  | n + 1 => do
    let start ← here
    consume (.punctuation .leftParen) .parenAfterWhile
    expression n
    consume (.punctuation .rightParen) .parenAfterCondition
    let exit ← emitJump .jumpIfFalse
    emit .pop
    statement n
    emitBackJump start
    landJump exit
    emit .pop

def forStatement : Nat → Compiler Unit
  | 0 => outOfFuel
  | n + 1 => do
    openScope
    consume (.punctuation .leftParen) .parenAfterFor
    forInitializer n
    let start ← here
    let exit ← forCondition n
    let start ← forIncrement n start
    statement n
    emitBackJump start
    match exit with
    | some exit =>
      landJump exit
      emit .pop
    | none => pure ()
    closeScope

def forInitializer : Nat → Compiler Unit
  | 0 => outOfFuel
  | n + 1 => do
    if ← accept (.punctuation .semicolon) then
      pure ()
    else if ← accept (.keyword .var) then
      variableDeclaration n
    else
      expressionStatement n

/-- The condition of a loop; gives the jump that leaves the loop, if there is a condition. -/
def forCondition : Nat → Compiler (Option Nat)
  | 0 => outOfFuel
  | n + 1 => do
    if ← accept (.punctuation .semicolon) then
      return none
    else
      expression n
      consume (.punctuation .semicolon) .semicolonAfterCondition
      let exit ← emitJump .jumpIfFalse
      emit .pop
      return some exit

/-- The increment of a loop, which runs after the body: the body jumps back to it, and it jumps
back to the condition. Gives the offset the body jumps back to. -/
def forIncrement : Nat → Nat → Compiler Nat
  | 0, _ => outOfFuel
  | n + 1, start => do
    if ← accept (.punctuation .rightParen) then
      return start
    else
      let body ← emitJump .jump
      let increment ← here
      expression n
      emit .pop
      consume (.punctuation .rightParen) .parenAfterClauses
      emitBackJump start
      landJump body
      return increment

end

/-- Declarations up to the end of the source. -/
def declarations : Nat → Compiler Unit
  | 0 => outOfFuel
  | n + 1 => do
    unless ← accept .eof do
      declaration n
      declarations n

/-- A whole script. -/
def script (n : Nat) : Compiler Function := do
  advance
  declarations n
  let (f, _) ← endFunction
  return f

/-- A recursion budget for the tokens of a source. -/
def budget (tokens : List Token) : Nat := 16 * (tokens.length + 2)

/-- What compiling a source leaves behind: the script or the errors, the heap, and the figures of
the functions in the order in which they were finished. -/
structure Compilation where
  result : Except (List Error) Ref
  heap : Heap
  summaries : List Summary

/-- The script is put on the heap last, if there were no errors. -/
def Compilation.ofState (f : Function) (s : State) : Compilation :=
  if s.errors.isEmpty then
    let (heap, r) := s.heap.allocate (.function f)
    ⟨.ok r, heap, s.summaries.toList⟩
  else ⟨.error s.errors.toList, s.heap, s.summaries.toList⟩

/-- Compiles with a given recursion budget. -/
def compileWithin (n : Nat) (tokens : List Token) (heap : Heap) : Option Compilation :=
  (script n (.new tokens heap)).map fun (f, s) => .ofState f s

/-- Compiles a source onto a heap. -/
def compile (source : String) (heap : Heap) : Compilation :=
  let tokens := Lexical.scan source
  (compileWithin (budget tokens) tokens heap).getD ⟨.error [], heap, []⟩

end Compile
end StackScript
