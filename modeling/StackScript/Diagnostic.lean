import StackScript.Token

/-!
What can be wrong with a source text. A diagnostic has a cause, the line of the token
it was found at, and that token's place; its wording is fixed in one function.
-/

namespace StackScript

/-- What the grammar requires at a place where something else stands. -/
inductive Expectation where
  | variableName
  | semicolonAfterDeclaration
  | braceAfterBlock
  | semicolonAfterValue
  | semicolonAfterExpression
  | parenAfterIf
  | parenAfterCondition
  | parenAfterWhile
  | parenAfterFor
  | semicolonAfterLoopCondition
  | parenAfterForClauses
  | semicolonAfterReturnValue
  | parenAfterExpression
  deriving DecidableEq, Repr

def Expectation.message : Expectation → String
  | .variableName => "Expect variable name."
  | .semicolonAfterDeclaration => "Expect ';' after variable declaration."
  | .braceAfterBlock => "Expect '\x7d' after block."
  | .semicolonAfterValue => "Expect ';' after value."
  | .semicolonAfterExpression => "Expect ';' after expression."
  | .parenAfterIf => "Expect '(' after 'if'."
  | .parenAfterCondition => "Expect ')' after condition."
  | .parenAfterWhile => "Expect '(' after 'while'."
  | .parenAfterFor => "Expect '(' after 'for'."
  | .semicolonAfterLoopCondition => "Expect ';' after loop condition."
  | .parenAfterForClauses => "Expect ')' after for clauses."
  | .semicolonAfterReturnValue => "Expect ';' after return value."
  | .parenAfterExpression => "Expect ')' after expression."

namespace Diagnostic

inductive Cause where
  | lexical (fault : LexicalFault)
  | expect (what : Expectation)
  | expectExpression
  | invalidAssignmentTarget
  | topLevelReturn
  | alreadyDeclared
  | readInOwnInitializer
  | tooManyConstants
  | tooManyLocals
  | jumpTooLarge
  | loopTooLarge
  | tooDeeplyNested
  deriving DecidableEq, Repr

def Cause.message : Cause → String
  | .lexical .unterminatedString => "Unterminated string."
  | .lexical (.unexpectedCharacter c) => "Unexpected character '" ++ c.toString ++ "'."
  | .expect what => what.message
  | .expectExpression => "Expect expression."
  | .invalidAssignmentTarget => "Invalid assignment target."
  | .topLevelReturn => "Can't return from top-level code."
  | .alreadyDeclared => "Already a variable with this name in this scope."
  | .readInOwnInitializer => "Can't read local variable in its own initializer."
  | .tooManyConstants => "Too many constants in one chunk."
  | .tooManyLocals => "Too many local variables in function."
  | .jumpTooLarge => "Too much code to jump over."
  | .loopTooLarge => "Loop body too large."
  | .tooDeeplyNested => "Too deeply nested."

/-- The place of a diagnostic. Text that is no token has no place of its own. -/
inductive Location where
  | atToken (lexeme : String)
  | atEnd
  | nowhere
  deriving DecidableEq, Repr

def Location.message : Location → String
  | .atToken lexeme => " at '" ++ lexeme ++ "'"
  | .atEnd => " at end"
  | .nowhere => ""

end Diagnostic

structure Diagnostic where
  cause : Diagnostic.Cause
  line : Nat
  location : Diagnostic.Location
  deriving DecidableEq, Repr

namespace Diagnostic

def message (d : Diagnostic) : String :=
  "[line " ++ d.line.repr ++ "] Error" ++ d.location.message ++ ": " ++ d.cause.message

end Diagnostic

/-- The place of a token, as diagnostics name it. -/
def Token.location (t : Token) : Diagnostic.Location :=
  match t.kind with
  | .endOfFile => .atEnd
  | .fault _ => .nowhere
  | _ => .atToken t.lexeme

end StackScript
