import StackScript.Builder.Expression
import StackScript.Token.Scan

/-!
Statements, declarations and whole texts. Each function for a statement reads it behind
the word that starts it; the readers of the statements and expressions inside it are
handed in, already one level deeper.
-/

namespace StackScript

namespace Builder

/-- A variable's name, its optional initializer and the closing semicolon. -/
def varDeclaration (expression : Builder → Builder) (b : Builder) : Builder :=
  let (b, name) := b.readVariable
  let b := if b.sees .assign then expression b.advance else b.emit .pushNil
  let b := b.expect .semicolon .semicolonAfterDeclaration
  b.defineVariable name

def declaration (statement expression : Builder → Builder) (b : Builder) : Builder :=
  let b := if b.sees .varWord then b.advance.varDeclaration expression else statement b
  if b.panicking then b.synchronize else b

def printStatement (expression : Builder → Builder) (b : Builder) : Builder :=
  ((expression b).expect .semicolon .semicolonAfterValue).emit .print

/-- An expression whose value is dropped. -/
def expressionStatement (expression : Builder → Builder) (b : Builder) : Builder :=
  ((expression b).expect .semicolon .semicolonAfterExpression).emit .pop

/-- Declarations up to the closing brace. -/
def block (statement expression : Builder → Builder) (b : Builder) : Builder :=
  let b := repeatWhile (fun b => !b.sees .rightBrace && !b.sees .endOfFile)
    (declaration statement expression) b.unread b
  b.expect .rightBrace .braceAfterBlock

/-- A condition in parentheses, with the jump that is taken when it fails. -/
def condition (expression : Builder → Builder) (opening : Expectation) (b : Builder) :
    Builder × Nat :=
  let b := b.expect .leftParen opening
  let b := expression b
  let b := b.expect .rightParen .parenAfterCondition
  let (b, failJump) := b.emitJump .jumpIfFalse
  (b.emit .pop, failJump)

/-- The end of an `if`'s first branch: a jump over the second one, which starts here. -/
def otherwise (thenJump : Nat) (b : Builder) : Builder × Nat :=
  let (b, elseJump) := b.emitJump .jump
  ((b.patchJump thenJump).emit .pop, elseJump)

def ifStatement (statement expression : Builder → Builder) (b : Builder) : Builder :=
  let (b, thenJump) := b.condition expression .parenAfterIf
  let b := statement b
  let (b, elseJump) := b.otherwise thenJump
  let b := if b.sees .elseWord then statement b.advance else b
  b.patchJump elseJump

def whileStatement (statement expression : Builder → Builder) (b : Builder) : Builder :=
  let loopStart := b.chunk.size
  let (b, exitJump) := b.condition expression .parenAfterWhile
  let b := statement b
  let b := b.emitLoop loopStart
  (b.patchJump exitJump).emit .pop

/-- The first clause of a `for`: nothing, a declaration or an expression. -/
def forStart (expression : Builder → Builder) (b : Builder) : Builder :=
  if b.sees .semicolon then b.advance
  else if b.sees .varWord then b.advance.varDeclaration expression
  else b.expressionStatement expression

/-- The condition of a `for`, with the jump that leaves the loop. Without a condition
there is no such jump. -/
def forCondition (expression : Builder → Builder) (b : Builder) : Builder × Option Nat :=
  if b.sees .semicolon then (b.advance, none)
  else
    let b := (expression b).expect .semicolon .semicolonAfterLoopCondition
    let (b, exitJump) := b.emitJump .jumpIfFalse
    (b.emit .pop, some exitJump)

/-- The last clause of a `for`. Its code stands before the body, which jumps back to
it; from there the loop continues at its condition. Gives the offset that the body
jumps back to. -/
def forIncrement (expression : Builder → Builder) (loopStart : Nat) (b : Builder) :
    Builder × Nat :=
  if b.sees .rightParen then (b.advance, loopStart)
  else
    let (b, bodyJump) := b.emitJump .jump
    let incrementStart := b.chunk.size
    let b := (expression b).emit .pop
    let b := b.expect .rightParen .parenAfterForClauses
    let b := b.emitLoop loopStart
    (b.patchJump bodyJump, incrementStart)

/-- All that stands before the body of a `for`, in the scope of the loop. Gives the jump
that leaves the loop, if there is one, and the offset that the body jumps back to. -/
def forClauses (expression : Builder → Builder) (b : Builder) : Builder × Option Nat × Nat :=
  let b := b.expect .leftParen .parenAfterFor
  let b := b.forStart expression
  let loopStart := b.chunk.size
  let (b, exitJump) := b.forCondition expression
  let (b, bodyEnd) := b.forIncrement expression loopStart
  (b, exitJump, bodyEnd)

/-- The way out of a `for`. -/
def forExit (exitJump : Option Nat) (b : Builder) : Builder :=
  match exitJump with
  | some exitJump => (b.patchJump exitJump).emit .pop
  | none => b

def forStatement (statement expression : Builder → Builder) (b : Builder) : Builder :=
  let (b, exitJump, bodyEnd) := b.beginScope.forClauses expression
  let b := (statement b).emitLoop bodyEnd
  (b.forExit exitJump).endScope

/-- There is nothing to return from, so the statement is only read. -/
def returnStatement (expression : Builder → Builder) (b : Builder) : Builder :=
  let b := b.errorAtPrevious .topLevelReturn
  if b.sees .semicolon then b.advance
  else (expression b).expect .semicolon .semicolonAfterReturnValue

/-- Any statement, on the level that has been opened for it. -/
def statementWithin (statement expression : Builder → Builder) (b : Builder) : Builder :=
  match b.current.kind with
  | .printWord => b.advance.printStatement expression
  | .forWord => b.advance.forStatement statement expression
  | .ifWord => b.advance.ifStatement statement expression
  | .returnWord => b.advance.returnStatement expression
  | .whileWord => b.advance.whileStatement statement expression
  | .leftBrace => (b.advance.beginScope.block statement expression).endScope
  | _ => b.expressionStatement expression

/-- A statement on a level of its own. The first argument bounds the recursion as it does
for operands. -/
def statement : Nat → Builder → Builder
  | 0, b => b
  | depth + 1, b => b.nested (statementWithin (statement depth) (expression depth))

/-- A declaration at the top level, with all levels still to be opened. -/
def topDeclaration : Builder → Builder :=
  declaration (statement (nestingMax + 1)) (expression (nestingMax + 1))

/-- Reads all tokens. -/
def program (tokens : List Token) : Builder :=
  let b := ({ unread := tokens } : Builder).advance
  let b := repeatWhile (fun b => !b.sees .endOfFile) topDeclaration b.unread b
  b.advance.emit .ret

end Builder

/-- Compiles a text: gives either a chunk, or all the diagnostics in the order in which
they were found. -/
def compile (source : String) : Except (Array Diagnostic) Chunk :=
  let b := Builder.program (Token.scan source)
  if b.errors.isEmpty then .ok b.chunk else .error b.errors

end StackScript
