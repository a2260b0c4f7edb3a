import StackScript.Builder.Statement
import StackScript.Proofs.Builder.Quiet

/-!
The readers as code for a machine. The functions that read a text are bounded from outside, by a
depth and by the number of unread tokens. Here they are code without any bounds: loops go on as long
as their test holds, and statements and operands call one another freely. Only the limit on nesting
is part of the code.
-/

namespace StackScript

namespace Builder

/-- Takes the next token. A fault is reported; any other token becomes current. At the end of the
text there is nothing to take. -/
def take (b : Builder) : Builder :=
  match b.unread with
  | [] => b
  | t :: rest =>
      match t.kind with
      | .fault reason => { b.report t (.lexical reason) with unread := rest }
      | _ => { b with current := t, unread := rest }

/-- Whether the next token is a fault. -/
def faultAhead (b : Builder) : Bool :=
  match b.unread with
  | [] => false
  | t :: _ =>
      match t.kind with
      | .fault _ => true
      | _ => false

/-- Declares the token read last, and gives what `readVariable` gives. -/
def declared (b : Builder) : Builder × UInt8 :=
  let b := b.declareVariable
  if 0 < b.scopeDepth then (b, 0) else b.nameConstant b.previous.lexeme

theorem quiet_declared (b : Builder) : Quiet b b.declared.1 := by
  unfold declared
  dsimp only
  split
  · exact quiet_declareVariable b
  · exact (quiet_declareVariable b).trans (quiet_makeConstant _ _)

theorem quiet_otherwise (thenJump : Nat) (b : Builder) : Quiet b (b.otherwise thenJump).1 :=
  (quiet_emitJump .jump b).trans ((quiet_patchJump thenJump _).trans (quiet_emit .pop _))

theorem quiet_forExit (exitJump : Option Nat) (b : Builder) : Quiet b (b.forExit exitJump) := by
  cases exitJump with
  | none => exact .refl b
  | some jump => exact (quiet_patchJump jump b).trans (quiet_emit .pop _)

end Builder

namespace Reader

open Builder

/-- A step that reads nothing, with a result for the code behind it. -/
structure Effect (α : Type) where
  apply : Builder → Builder × α
  quiet : ∀ b, Quiet b (apply b).1

/-- A step without a result. -/
def Effect.plain (f : Builder → Builder) (quiet : ∀ b, Quiet b (f b)) : Effect Unit :=
  ⟨fun b => (f b, ()), quiet⟩

/-- The readers that come to call themselves. -/
inductive Proc where
  | declaration
  | statement
  | operand (p : Precedence)

/-- The loops of the readers. -/
inductive Loop where
  /-- Passes over faults when moving on. -/
  | faults
  /-- Skips tokens to leave a panic. -/
  | recovery
  /-- Reads the operators that belong to an operand. -/
  | joins (p : Precedence)
  /-- Reads the declarations of a block. -/
  | block
  /-- Reads the declarations of the text. -/
  | text

inductive Code where
  | skip
  | act (e : Effect Unit)
  | take
  /-- Goes on as the builder tells. -/
  | look (k : Builder → Code)
  | seq (first second : Code)
  | loop (l : Loop)
  /-- Runs the body one level deeper. -/
  | nested (body : Code)
  | call (p : Proc)

namespace Code

/-- A step whose result is needed later. -/
def bind {α : Type} (e : Effect α) (k : α → Code) : Code :=
  look fun b => seq (act ⟨fun b => ((e.apply b).1, ()), e.quiet⟩) (k (e.apply b).2)

def ite (test : Builder → Bool) (yes no : Code) : Code :=
  look fun b => if test b then yes else no

def emit (op : Opcode) : Code := act (.plain (·.emit op) (quiet_emit op))

def errorAtPrevious (cause : Diagnostic.Cause) : Code :=
  act (.plain (·.errorAtPrevious cause) (quiet_errorAtPrevious cause))

def errorAtCurrent (cause : Diagnostic.Cause) : Code :=
  act (.plain (·.errorAtCurrent cause) (quiet_errorAtCurrent cause))

def patchJump (offset : Nat) : Code := act (.plain (·.patchJump offset) (quiet_patchJump offset))

def emitLoop (start : Nat) : Code := act (.plain (·.emitLoop start) (quiet_emitLoop start))

def emitJump (op : Opcode) (k : Nat → Code) : Code := bind ⟨(·.emitJump op), quiet_emitJump op⟩ k

/-- The current token becomes the previous one. -/
def shift : Code :=
  act (.plain (fun b => { b with previous := b.current }) fun _ => ⟨rfl, rfl, rfl⟩)

def advance : Code := seq shift (seq (loop .faults) take)

def expect (kind : TokenKind) (what : Expectation) : Code :=
  ite (·.sees kind) advance (errorAtCurrent (.expect what))

def synchronize : Code :=
  seq (act (.plain (fun b => { b with panicking := false }) fun _ => ⟨rfl, rfl, rfl⟩))
    (loop .recovery)

def expression : Code := call (.operand .assignment)

def statement : Code := call .statement

section Expressions

def namedVariable (canAssign : Bool) : Code :=
  look fun b =>
    bind ⟨(·.accessTo b.previous.lexeme), quiet_accessTo b.previous.lexeme⟩ fun access =>
    ite (fun b => canAssign && b.sees .assign)
      (seq advance (seq expression
        (act (.plain (·.emitWithByte access.set access.operand) (quiet_emitWithByte _ _)))))
      (act (.plain (·.emitWithByte access.get access.operand) (quiet_emitWithByte _ _)))

def lead (canAssign : Bool) : Lead → Code
  | .group => seq expression (expect .rightParen .parenAfterExpression)
  | .unary op => seq (call (.operand .unary)) (emit op)
  | .literal op => emit op
  | .number => act (.plain Builder.number quiet_number)
  | .string => act (.plain Builder.string quiet_string)
  | .identifier => namedVariable canAssign

def join : Join → Code
  | .binary _ right ops =>
      seq (call (.operand right)) (act (.plain (ops.foldl Builder.emit ·) (quiet_emitAll ops)))
  | .conjunction =>
      emitJump .jumpIfFalse fun endJump =>
        seq (emit .pop) (seq (call (.operand .and)) (patchJump endJump))
  | .disjunction =>
      emitJump .jumpIfFalse fun elseJump => emitJump .jump fun endJump =>
        seq (patchJump elseJump) (seq (emit .pop) (seq (call (.operand .or)) (patchJump endJump)))

def joinNext : Code :=
  seq advance (look fun b =>
    match b.previous.kind.join? with
    | some j => join j
    | none => skip)

def operandWithin (p : Precedence) : Code :=
  seq advance (look fun b =>
    match b.previous.kind.lead? with
    | none => errorAtPrevious .expectExpression
    | some l =>
        seq (lead (p = .assignment) l) (seq (loop (.joins p))
          (ite (fun b => decide (p = .assignment) && b.sees .assign)
            (seq advance (errorAtPrevious .invalidAssignmentTarget)) skip)))

end Expressions

section Statements

def varDeclaration : Code :=
  seq (expect .identifier .variableName) (bind ⟨Builder.declared, quiet_declared⟩ fun name =>
    seq (ite (·.sees .assign) (seq advance expression) (emit .pushNil))
      (seq (expect .semicolon .semicolonAfterDeclaration)
        (act (.plain (·.defineVariable name) (quiet_defineVariable name)))))

def declaration : Code :=
  seq (ite (·.sees .varWord) (seq advance varDeclaration) statement)
    (ite (·.panicking) synchronize skip)

def printStatement : Code :=
  seq expression (seq (expect .semicolon .semicolonAfterValue) (emit .print))

def expressionStatement : Code :=
  seq expression (seq (expect .semicolon .semicolonAfterExpression) (emit .pop))

def block : Code := seq (loop .block) (expect .rightBrace .braceAfterBlock)

def condition (opening : Expectation) (k : Nat → Code) : Code :=
  seq (expect .leftParen opening) (seq expression (seq (expect .rightParen .parenAfterCondition)
    (emitJump .jumpIfFalse fun failJump => seq (emit .pop) (k failJump))))

def ifStatement : Code :=
  condition .parenAfterIf fun thenJump => seq statement
    (bind ⟨(·.otherwise thenJump), quiet_otherwise thenJump⟩ fun elseJump =>
      seq (ite (·.sees .elseWord) (seq advance statement) skip) (patchJump elseJump))

def whileStatement : Code :=
  look fun b => condition .parenAfterWhile fun exitJump => seq statement
    (seq (emitLoop b.chunk.size) (seq (patchJump exitJump) (emit .pop)))

def forStart : Code :=
  ite (·.sees .semicolon) advance
    (ite (·.sees .varWord) (seq advance varDeclaration) expressionStatement)

def forCondition (k : Option Nat → Code) : Code :=
  ite (·.sees .semicolon) (seq advance (k none))
    (seq expression (seq (expect .semicolon .semicolonAfterLoopCondition)
      (emitJump .jumpIfFalse fun exitJump => seq (emit .pop) (k (some exitJump)))))

def forIncrement (loopStart : Nat) (k : Nat → Code) : Code :=
  ite (·.sees .rightParen) (seq advance (k loopStart))
    (emitJump .jump fun bodyJump => look fun b => seq expression (seq (emit .pop)
      (seq (expect .rightParen .parenAfterForClauses)
        (seq (emitLoop loopStart) (seq (patchJump bodyJump) (k b.chunk.size))))))

def forStatement : Code :=
  seq (act (.plain beginScope quiet_beginScope)) (seq (expect .leftParen .parenAfterFor)
    (seq forStart (look fun b => forCondition fun exitJump =>
      forIncrement b.chunk.size fun bodyEnd => seq statement (seq (emitLoop bodyEnd)
        (seq (act (.plain (·.forExit exitJump) (quiet_forExit exitJump)))
          (act (.plain endScope quiet_endScope)))))))

def returnStatement : Code :=
  seq (errorAtPrevious .topLevelReturn)
    (ite (·.sees .semicolon) advance
      (seq expression (expect .semicolon .semicolonAfterReturnValue)))

def statementWithin : Code :=
  look fun b =>
    match b.current.kind with
    | .printWord => seq advance printStatement
    | .forWord => seq advance forStatement
    | .ifWord => seq advance ifStatement
    | .returnWord => seq advance returnStatement
    | .whileWord => seq advance whileStatement
    | .leftBrace =>
        seq advance (seq (act (.plain beginScope quiet_beginScope))
          (seq block (act (.plain endScope quiet_endScope))))
    | _ => expressionStatement

end Statements

/-- What is done in place of a body at the limit. -/
def tooDeep : Code := seq advance (errorAtPrevious .tooDeeplyNested)

def program : Code := seq advance (seq (loop .text) (seq advance (emit .ret)))

end Code

def Proc.code : Proc → Code
  | .declaration => Code.declaration
  | .statement => .nested Code.statementWithin
  | .operand p => .nested (Code.operandWithin p)

/-- Whether the loop goes on. -/
def Loop.more : Loop → Builder → Bool
  | .faults, b => b.faultAhead
  | .recovery, b =>
      !b.sees .endOfFile && b.previous.kind != .semicolon && !startsStatement b.current.kind
  | .joins p, b => joinsAt p b
  | .block, b => !b.sees .rightBrace && !b.sees .endOfFile
  | .text, b => !b.sees .endOfFile

/-- One round of the loop. -/
def Loop.round : Loop → Code
  | .faults => .take
  | .recovery => Code.advance
  | .joins _ => Code.joinNext
  | .block | .text => .call .declaration

/-- What is still to be done: code, or to leave a level when its body has been run. -/
inductive Task where
  | run (c : Code)
  | leave

/-- How many bodies are being run, each one on a level of its own. -/
def active : List Task → Nat
  | [] => 0
  | .leave :: rest => active rest + 1
  | .run _ :: rest => active rest

/-- The machine: what is to be done, the next first, and the builder as it is. -/
structure Config where
  tasks : List Task
  builder : Builder

/-- A single step. There is none when nothing is to be done any more. -/
def step : Config → Option Config
  | ⟨[], _⟩ => none
  | ⟨.leave :: rest, b⟩ => some ⟨rest, { b with nesting := b.nesting - 1 }⟩
  | ⟨.run .skip :: rest, b⟩ => some ⟨rest, b⟩
  | ⟨.run (.act e) :: rest, b⟩ => some ⟨rest, (e.apply b).1⟩
  | ⟨.run .take :: rest, b⟩ => some ⟨rest, b.take⟩
  | ⟨.run (.look k) :: rest, b⟩ => some ⟨.run (k b) :: rest, b⟩
  | ⟨.run (.seq c d) :: rest, b⟩ => some ⟨.run c :: .run d :: rest, b⟩
  | ⟨.run (.loop l) :: rest, b⟩ =>
      if l.more b then some ⟨.run l.round :: .run (.loop l) :: rest, b⟩ else some ⟨rest, b⟩
  | ⟨.run (.nested body) :: rest, b⟩ =>
      if b.nesting = nestingMax then some ⟨.run Code.tooDeep :: rest, b⟩
      else some ⟨.run body :: .leave :: rest, { b with nesting := b.nesting + 1 }⟩
  | ⟨.run (.call p) :: rest, b⟩ => some ⟨.run p.code :: rest, b⟩

/-- The machine before a text is read. -/
def start (source : String) : Config :=
  ⟨[.run Code.program], { unread := Token.scan source }⟩

end Reader

end StackScript
