import StackScript.Compile.Grammar

/-!
# StackScript.Proofs.Compile.Watch

The compiler once more, watched. It crashes where a number is taken from a smaller one and where an
index or a slice is out of range, and it stalls where it goes on for long without reading a token.

* `Watched`: a computation that is watched. `require`: what crashes.
* `call`: a production or a round of a loop begins. There may be `callLimit` of these between two
  tokens, and as many behind the last one.
* `Watched.script`, `Watched.compile`: the grammar, watched.
-/

namespace StackScript
namespace Compile

inductive Halt where
  | outOfFuel
  | stalled
  | crash

/-- How many productions and rounds of loops may begin before another token is read. -/
def callLimit : Nat := 24

structure Course where
  state : State
  /-- productions and rounds of loops that began since a token was read -/
  calls : Nat

abbrev Watched := StateT Course (Except Halt)

namespace Watched

def ofCompiler {α : Type} (x : Compiler α) : Watched α := fun c =>
  match x c.state with
  | some (a, s) => .ok (a, { c with state := s })
  | none => .error .outOfFuel

instance : MonadLift Compiler Watched := ⟨ofCompiler⟩

def state : Watched State := fun c => .ok (c.state, c)

def require (holds : Bool) : Watched Unit := fun c =>
  if holds then .ok ((), c) else .error .crash

/-- A production or a round of a loop begins. -/
def call : Watched Unit := fun c =>
  if c.calls < callLimit then .ok ((), { c with calls := c.calls + 1 }) else .error .stalled

/-- A token is read. -/
def restart : Watched Unit := fun c => .ok ((), { c with calls := 0 })

/-- Moves on by one token. `State.take` reads a token of the source in each of its rounds, but when
none is left it meets the end once more. -/
def advance : Watched Unit := do
  if (← state).rest.isEmpty then
    call
    Compile.advance
  else
    restart
    Compile.advance

def accept (kind : TokenKind) : Watched Bool := do
  if ← check kind then
    advance
    return true
  else
    return false

def consume (kind : TokenKind) (what : Expectation) : Watched Unit := do
  unless ← accept kind do
    reportCurrent (.expected what)

def skip : Nat → Watched Unit
  | 0 => fun _ => .error .stalled
  | steps + 1 => do
    let s ← state
    unless s.current.kind = .eof || s.previous.kind = .punctuation .semicolon
        || State.isBoundary s.current.kind do
      call
      advance
      skip steps

def recover : Watched Unit := do
  (modify fun s => { s with panicking := false } : Compiler Unit)
  skip ((← state).rest.length + 1)

def landJump (offset : Nat) : Watched Unit := do
  let size := (← state).draft.chunk.code.size
  require (offset + 3 ≤ size && offset + 2 < size)
  Compile.landJump offset

def emitBackJump (start : Nat) : Watched Unit := do
  require (start ≤ (← state).draft.chunk.code.size + 3)
  Compile.emitBackJump start

def closeScope : Watched Unit := do
  require (0 < (← state).draft.depth)
  Compile.closeScope

def newVariable (what : Expectation) : Watched UInt8 := do
  consume .identifier what
  declareVariable
  if 0 < (← depth) then
    return 0
  else
    nameConstant (← state).previous.lexeme

/-- Whether the slot in which a name is found can be told by an operand of one octet, and is the slot
of a local. -/
def hasSlot (name : String) : List Draft → Bool
  | [] => true
  | d :: outer =>
    match d.findLocal? name with
    | some (slot, _) => slot < slotLimit && slot.toUInt8.toNat < d.locals.length
    | none => hasSlot name outer

def resolve (name : String) : Watched Place := do
  let s ← state
  require (hasSlot name (s.draft :: s.enclosing))
  Compile.resolve name

/-- Whether a text without its first and its last octet is a text. -/
def hasInside (lexeme : String) : Bool :=
  2 ≤ lexeme.utf8ByteSize && String.Pos.Raw.isValid lexeme ⟨1⟩ &&
    String.Pos.Raw.isValid lexeme ⟨lexeme.utf8ByteSize - 1⟩

mutual

def expression : Nat → Watched Unit
  | 0 => outOfFuel
  | n + 1 => do
    call
    operand n .assignment

def operand : Nat → Precedence → Watched Unit
  | 0, _ => outOfFuel
  | n + 1, p => do
    call
    advance
    match leading? (← state).previous.kind with
    | none => report (.expected .expression)
    | some form =>
      let assignable := decide (p ≤ .assignment)
      leading n form assignable
      operators n p assignable
      if assignable then
        if ← accept (.punctuation .equal) then
          report .assignmentTarget

def operators : Nat → Precedence → Bool → Watched Unit
  | 0, _, _ => outOfFuel
  | n + 1, p, assignable => do
    match trailing? (← state).current.kind with
    | none => pure ()
    | some form =>
      if p ≤ form.precedence then
        call
        advance
        trailing n form assignable
        operators n p assignable

def leading : Nat → Leading → Bool → Watched Unit
  | 0, _, _ => outOfFuel
  | n + 1, form, assignable => do
    call
    match form with
    | .grouping => do
      expression n
      consume (.punctuation .rightParen) .parenAfterExpression
    | .array => do
      let count ← items n (.punctuation .rightBracket) .elements .bracketAfterElements
      emit (.array count)
    | .unary op => do
      operand n .unary
      emit op.code
    | .variable => do
      let place ← resolve (← state).previous.lexeme
      if assignable then
        if ← accept (.punctuation .equal) then
          expression n
          emit place.assign
        else
          emit place.read
      else
        emit place.read
    | .string => do
      let lexeme := (← state).previous.lexeme
      require (hasInside lexeme)
      let r ← intern (String.ofList (lexeme.toList.drop 1).dropLast)
      emitConstant (.object r)
    | .number => do
      emitConstant (.number (Numeral.ofLiteral (← state).previous.lexeme))
    | .constant i => emit i

def trailing : Nat → Trailing → Bool → Watched Unit
  | 0, _, _ => outOfFuel
  | n + 1, form, assignable => do
    call
    match form with
    | .call => do
      let count ← items n (.punctuation .rightParen) .arguments .parenAfterArguments
      emit (.call count)
    | .index => do
      expression n
      consume (.punctuation .rightBracket) .bracketAfterIndex
      if assignable then
        if ← accept (.punctuation .equal) then
          expression n
          emit .setIndex
        else
          emit .getIndex
      else
        emit .getIndex
    | .binary op => do
      operand n op.precedence.next
      emitAll op.code
    | .and => do
      let past ← emitJump .jumpIfFalse
      emit .pop
      operand n .conjunction
      landJump past
    | .or => do
      let otherwise ← emitJump .jumpIfFalse
      let past ← emitJump .jump
      landJump otherwise
      emit .pop
      operand n .disjunction
      landJump past

def items : Nat → TokenKind → Limit → Expectation → Watched UInt8
  | 0, _, _, _ => outOfFuel
  | n + 1, close, limit, what => do
    call
    let count ← if ← check close then pure 0 else itemsFrom n limit 0
    consume close what
    return (min count countLimit).toUInt8

def itemsFrom : Nat → Limit → Nat → Watched Nat
  | 0, _, _ => outOfFuel
  | n + 1, limit, count => do
    call
    expression n
    if count = countLimit then
      report (.exceeded limit)
    if ← accept (.punctuation .comma) then
      itemsFrom n limit (count + 1)
    else
      return count + 1

end

mutual

def declaration : Nat → Watched Unit
  | 0 => outOfFuel
  | n + 1 => do
    call
    if ← accept (.keyword .fun) then
      functionDeclaration n
    else if ← accept (.keyword .var) then
      variableDeclaration n
    else
      statement n
    if (← state).panicking then
      recover

def functionDeclaration : Nat → Watched Unit
  | 0 => outOfFuel
  | n + 1 => do
    call
    let global ← newVariable .functionName
    makeReadable
    function n
    defineVariable global

def variableDeclaration : Nat → Watched Unit
  | 0 => outOfFuel
  | n + 1 => do
    call
    let global ← newVariable .variableName
    if ← accept (.punctuation .equal) then
      expression n
    else
      emit .pushNil
    consume (.punctuation .semicolon) .semicolonAfterDeclaration
    defineVariable global

def function : Nat → Watched Unit
  | 0 => outOfFuel
  | n + 1 => do
    call
    beginFunction (← intern (← state).previous.lexeme)
    openScope
    consume (.punctuation .leftParen) .parenAfterFunctionName
    unless ← check (.punctuation .rightParen) do
      parameters n
    consume (.punctuation .rightParen) .parenAfterParameters
    consume (.punctuation .leftBrace) .braceBeforeBody
    call
    block n
    let (f, captures) ← endFunction
    let r ← allocate (.function f)
    emit (.closure (← addConstant (.object r)))
    emitAll (captures.toList.map .capture)

def parameters : Nat → Watched Unit
  | 0 => outOfFuel
  | n + 1 => do
    call
    (modify fun s => { s with draft := { s.draft with arity := s.draft.arity + 1 } } : Compiler Unit)
    if countLimit < (← state).draft.arity then
      reportCurrent (.exceeded .parameters)
    let global ← newVariable .parameterName
    defineVariable global
    if ← accept (.punctuation .comma) then
      parameters n

def statement : Nat → Watched Unit
  | 0 => outOfFuel
  | n + 1 => do
    call
    if ← accept (.keyword .print) then
      call
      expression n
      consume (.punctuation .semicolon) .semicolonAfterValue
      emit .print
    else if ← accept (.keyword .for) then
      forStatement n
    else if ← accept (.keyword .if) then
      ifStatement n
    else if ← accept (.keyword .return) then
      returnStatement n
    else if ← accept (.keyword .while) then
      whileStatement n
    else if ← accept (.punctuation .leftBrace) then
      openScope
      call
      block n
      closeScope
    else
      expressionStatement n

/-- The rounds of a block. -/
def block : Nat → Watched Unit
  | 0 => outOfFuel
  | n + 1 => do
    if (← check (.punctuation .rightBrace)) || (← check .eof) then
      consume (.punctuation .rightBrace) .braceAfterBlock
    else
      call
      declaration n
      block n

def expressionStatement : Nat → Watched Unit
  | 0 => outOfFuel
  | n + 1 => do
    call
    expression n
    consume (.punctuation .semicolon) .semicolonAfterExpression
    emit .pop

def returnStatement : Nat → Watched Unit
  | 0 => outOfFuel
  | n + 1 => do
    call
    if (← state).draft.kind = .script then
      report .returnFromScript
    if ← accept (.punctuation .semicolon) then
      emitReturn
    else
      expression n
      consume (.punctuation .semicolon) .semicolonAfterReturn
      emit .ret

def ifStatement : Nat → Watched Unit
  | 0 => outOfFuel
  | n + 1 => do
    call
    consume (.punctuation .leftParen) .parenAfterIf
    expression n
    consume (.punctuation .rightParen) .parenAfterCondition
    let otherwise ← emitJump .jumpIfFalse
    emit .pop
    statement n
    let past ← emitJump .jump
    landJump otherwise
    emit .pop
    if ← accept (.keyword .else) then
      statement n
    landJump past

def whileStatement : Nat → Watched Unit
  | 0 => outOfFuel
  | n + 1 => do
    call
    let start ← here
    consume (.punctuation .leftParen) .parenAfterWhile
    expression n
    consume (.punctuation .rightParen) .parenAfterCondition
    let exit ← emitJump .jumpIfFalse
    emit .pop
    statement n
    emitBackJump start
    landJump exit
    emit .pop

def forStatement : Nat → Watched Unit
  | 0 => outOfFuel
  | n + 1 => do
    call
    openScope
    consume (.punctuation .leftParen) .parenAfterFor
    forInitializer n
    let start ← here
    let exit ← forCondition n
    let start ← forIncrement n start
    statement n
    emitBackJump start
    match exit with
    | some exit =>
      landJump exit
      emit .pop
    | none => pure ()
    closeScope

def forInitializer : Nat → Watched Unit
  | 0 => outOfFuel
  | n + 1 => do
    if ← accept (.punctuation .semicolon) then
      pure ()
    else if ← accept (.keyword .var) then
      variableDeclaration n
    else
      expressionStatement n

def forCondition : Nat → Watched (Option Nat)
  | 0 => outOfFuel
  | n + 1 => do
    if ← accept (.punctuation .semicolon) then
      return none
    else
      expression n
      consume (.punctuation .semicolon) .semicolonAfterCondition
      let exit ← emitJump .jumpIfFalse
      emit .pop
      return some exit

def forIncrement : Nat → Nat → Watched Nat
  | 0, _ => outOfFuel
  | n + 1, start => do
    if ← accept (.punctuation .rightParen) then
      return start
    else
      let body ← emitJump .jump
      let increment ← here
      expression n
      emit .pop
      consume (.punctuation .rightParen) .parenAfterClauses
      emitBackJump start
      landJump body
      return increment

end

/-- The rounds of a script. -/
def declarations : Nat → Watched Unit
  | 0 => outOfFuel
  | n + 1 => do
    unless ← accept .eof do
      call
      declaration n
      declarations n

def script (n : Nat) : Watched Function := do
  advance
  declarations n
  let (f, _) ← endFunction
  return f

/-- Compiles a source while being watched. -/
def compile (source : String) (heap : Heap) : Except Halt Compilation :=
  let tokens := Lexical.scan source
  match script (budget tokens) ⟨.new tokens heap, 0⟩ with
  | .ok (f, c) => .ok (.ofState f c.state)
  | .error halt => .error halt

end Watched
end Compile
end StackScript
