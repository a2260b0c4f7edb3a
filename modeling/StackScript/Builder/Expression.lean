import StackScript.Builder.Scope

/-!
Expressions by binding strength. A token either can begin an expression, or join one
to what follows, or neither; an operand of a given strength takes in every operator
that binds at least as tightly. Code for an operand is written as it is read, so it
stands before the code of the operator.
-/

namespace StackScript

/-- How an expression can begin. -/
inductive Lead where
  | group
  | unary (op : Opcode)
  | literal (op : Opcode)
  | number
  | string
  | identifier

/-- What can join an expression to a right operand. Binary operators take a right
operand that binds more tightly than themselves, so they group to the left. -/
inductive Join where
  | binary (precedence right : Precedence) (ops : List Opcode)
  | conjunction
  | disjunction

def Join.precedence : Join → Precedence
  | .binary precedence _ _ => precedence
  | .conjunction => .and
  | .disjunction => .or

namespace TokenKind

def lead? : TokenKind → Option Lead
  | .leftParen => some .group
  | .minus => some (.unary .negate)
  | .bang => some (.unary .not)
  | .identifier => some .identifier
  | .string => some .string
  | .number => some .number
  | .falseWord => some (.literal .pushFalse)
  | .nilWord => some (.literal .pushNil)
  | .trueWord => some (.literal .pushTrue)
  | _ => none

/-- The comparisons that have no opcode are the negations of those that do. -/
def join? : TokenKind → Option Join
  | .minus => some (.binary .term .factor [.subtract])
  | .plus => some (.binary .term .factor [.add])
  | .slash => some (.binary .factor .unary [.divide])
  | .star => some (.binary .factor .unary [.multiply])
  | .bangEqual => some (.binary .equality .comparison [.equal, .not])
  | .equalEqual => some (.binary .equality .comparison [.equal])
  | .greater => some (.binary .comparison .term [.greater])
  | .greaterEqual => some (.binary .comparison .term [.less, .not])
  | .less => some (.binary .comparison .term [.less])
  | .lessEqual => some (.binary .comparison .term [.greater, .not])
  | .andWord => some .conjunction
  | .orWord => some .disjunction
  | _ => none

end TokenKind

namespace Builder

/-- How a variable is read and assigned to: the opcodes for that and their operand. -/
structure Access where
  get : Opcode
  set : Opcode
  operand : UInt8

/-- The access to a variable, which is global unless a local has its name. -/
def accessTo (b : Builder) (name : String) : Builder × Access :=
  match b.resolveLocal name with
  | (b, some slot) => (b, ⟨.getLocal, .setLocal, slot⟩)
  | (b, none) =>
      let (b, index) := b.nameConstant name
      (b, ⟨.getGlobal, .setGlobal, index⟩)

/-- A read of the variable named by the token read last, or an assignment to it if
one follows and may stand here. -/
def namedVariable (expression : Builder → Builder) (canAssign : Bool) (b : Builder) : Builder :=
  let (b, access) := b.accessTo b.previous.lexeme
  if canAssign && b.sees .assign then
    (expression b.advance).emitWithByte access.set access.operand
  else b.emitWithByte access.get access.operand

/-- A number literal, which the scanner has already checked. -/
def number (b : Builder) : Builder :=
  match Number.parse? b.previous.lexeme with
  | some x => b.emitConstant (.number x)
  | none => b.errorAtPrevious .expectExpression

/-- A string literal without its quotes. -/
def string (b : Builder) : Builder :=
  b.emitConstant (.string (String.ofList b.previous.lexeme.toList.tail.dropLast))

/-- The beginning of an expression, after its first token has been read. -/
def lead (operand : Precedence → Builder → Builder) (canAssign : Bool) (b : Builder) :
    Lead → Builder
  | .group => (operand .assignment b).expect .rightParen .parenAfterExpression
  | .unary op => (operand .unary b).emit op
  | .literal op => b.emit op
  | .number => b.number
  | .string => b.string
  | .identifier => b.namedVariable (operand .assignment) canAssign

/-- The right side of an operator that has been read. A short-circuit operator jumps
over its right operand and keeps the left one as the result. -/
def join (operand : Precedence → Builder → Builder) (b : Builder) : Join → Builder
  | .binary _ right ops => ops.foldl emit (operand right b)
  | .conjunction =>
      let (b, endJump) := b.emitJump .jumpIfFalse
      let b := operand .and (b.emit .pop)
      b.patchJump endJump
  | .disjunction =>
      let (b, elseJump) := b.emitJump .jumpIfFalse
      let (b, endJump) := b.emitJump .jump
      let b := (b.patchJump elseJump).emit .pop
      let b := operand .or b
      b.patchJump endJump

/-- Whether the current token joins something to an operand of this strength. -/
def joinsAt (p : Precedence) (b : Builder) : Bool :=
  b.current.kind.join?.any (p.admits ·.precedence)

/-- Reads an operator and its right side. -/
def joinNext (operand : Precedence → Builder → Builder) (b : Builder) : Builder :=
  let b := b.advance
  match b.previous.kind.join? with
  | some j => b.join operand j
  | none => b

/-- An expression whose operators all bind at least as tightly as `p`, on the level that
has been opened for it. -/
def operandWithin (operand : Precedence → Builder → Builder) (p : Precedence) (b : Builder) :
    Builder :=
  let b := b.advance
  match b.previous.kind.lead? with
  | none => b.errorAtPrevious .expectExpression
  | some l =>
      let canAssign := p = .assignment
      let b := b.lead operand canAssign l
      let b := repeatWhile (joinsAt p) (joinNext operand) b.unread b
      if canAssign && b.sees .assign then b.advance.errorAtPrevious .invalidAssignmentTarget
      else b

/-- An operand on a level of its own. The first argument bounds the recursion; it exceeds
the levels that may still be opened, so the limit on nesting is met before it runs out. -/
def operand : Nat → Precedence → Builder → Builder
  | 0, _, b => b
  | depth + 1, p, b => b.nested (operandWithin (operand depth) p)

def expression (depth : Nat) : Builder → Builder :=
  operand depth .assignment

end Builder

end StackScript
