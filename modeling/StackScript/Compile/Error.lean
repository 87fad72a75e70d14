import StackScript.Lexical.Token

/-!
# StackScript.Compile.Error

What can be wrong with a source, and how it is reported.

* `Expectation`: places where the grammar leaves one kind of token only.
* `Limit`: what an operand of one or two octets bounds.
* `Fault`: all faults; `Error`: a fault and the token at which it was noticed.
-/

namespace StackScript
namespace Compile

inductive Expectation where
  | functionName
  | variableName
  | parameterName
  | parenAfterFunctionName
  | parenAfterParameters
  | braceBeforeBody
  | braceAfterBlock
  | semicolonAfterDeclaration
  | semicolonAfterValue
  | semicolonAfterExpression
  | semicolonAfterReturn
  | semicolonAfterCondition
  | parenAfterIf
  | parenAfterWhile
  | parenAfterFor
  | parenAfterCondition
  | parenAfterClauses
  | expression
  | parenAfterExpression
  | parenAfterArguments
  | bracketAfterElements
  | bracketAfterIndex
deriving DecidableEq

namespace Expectation

def message : Expectation → String
  | .functionName => "Expect function name."
  | .variableName => "Expect variable name."
  | .parameterName => "Expect parameter name."
  | .parenAfterFunctionName => "Expect '(' after function name."
  | .parenAfterParameters => "Expect ')' after parameters."
  | .braceBeforeBody => "Expect '\x7b' before function body."
  | .braceAfterBlock => "Expect '\x7d' after block."
  | .semicolonAfterDeclaration => "Expect ';' after variable declaration."
  | .semicolonAfterValue => "Expect ';' after value."
  | .semicolonAfterExpression => "Expect ';' after expression."
  | .semicolonAfterReturn => "Expect ';' after return value."
  | .semicolonAfterCondition => "Expect ';' after loop condition."
  | .parenAfterIf => "Expect '(' after 'if'."
  | .parenAfterWhile => "Expect '(' after 'while'."
  | .parenAfterFor => "Expect '(' after 'for'."
  | .parenAfterCondition => "Expect ')' after condition."
  | .parenAfterClauses => "Expect ')' after for clauses."
  | .expression => "Expect expression."
  | .parenAfterExpression => "Expect ')' after expression."
  | .parenAfterArguments => "Expect ')' after arguments."
  | .bracketAfterElements => "Expect ']' after array elements."
  | .bracketAfterIndex => "Expect ']' after index."

end Expectation

inductive Limit where
  | parameters
  | arguments
  | elements
  | locals
  | upvalues
  | constants
  | jump
  | loop
deriving DecidableEq

namespace Limit

def message : Limit → String
  | .parameters => "Can't have more than 255 parameters."
  | .arguments => "Can't have more than 255 arguments."
  | .elements => "Can't have more than 255 elements in an array literal."
  | .locals => "Too many local variables in function."
  | .upvalues => "Too many closure variables in function."
  | .constants => "Too many constants in one chunk."
  | .jump => "Too much code to jump over."
  | .loop => "Loop body too large."

end Limit

inductive Fault where
  | lexical (fault : LexicalFault)
  | expected (what : Expectation)
  | exceeded (limit : Limit)
  | assignmentTarget
  | duplicateVariable
  | ownInitializer
  | returnFromScript
deriving DecidableEq

namespace Fault

def message : Fault → String
  | .lexical fault => fault.message
  | .expected what => what.message
  | .exceeded limit => limit.message
  | .assignmentTarget => "Invalid assignment target."
  | .duplicateVariable => "Already a variable with this name in this scope."
  | .ownInitializer => "Can't read local variable in its own initializer."
  | .returnFromScript => "Can't return from top-level code."

end Fault

/-- How a report names the token at which a fault was noticed. A fault of the source text itself
names none. -/
inductive Location where
  | atToken (lexeme : String)
  | atEnd
  | nowhere
deriving DecidableEq

namespace Location

def ofToken (t : Token) : Location :=
  match t.kind with
  | .eof => .atEnd
  | .fault _ => .nowhere
  | _ => .atToken t.lexeme

def text : Location → String
  | .atToken lexeme => " at '" ++ lexeme ++ "'"
  | .atEnd => " at end"
  | .nowhere => ""

end Location

structure Error where
  /-- where the fault was noticed -/
  token : Token
  fault : Fault
deriving DecidableEq

namespace Error

def line (e : Error) : Nat := e.token.line

def location (e : Error) : Location := .ofToken e.token

def text (e : Error) : String :=
  "[line " ++ toString e.line ++ "] Error" ++ e.location.text ++ ": " ++ e.fault.message

end Error

/-- All errors of a source, one per line. -/
def renderErrors (errors : List Error) : String := "\n".intercalate (errors.map Error.text)

end Compile
end StackScript
