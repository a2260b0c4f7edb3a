import StackScript.Builder.Statement

/-!
What a whole compilation keeps follows from what its small steps keep. A relation between
an earlier and a later builder is closed when every small step obeys it; then every reader
of expressions, statements and declarations obeys it too, whatever the tokens are.
-/

namespace StackScript.Builder

/-- A relation that no small step of a compilation breaks. Levels and scopes are opened
and closed in pairs, so a step inside them is compared as a whole. -/
structure Closed (R : Builder → Builder → Prop) : Prop where
  refl : ∀ b, R b b
  trans : ∀ {b₁ b₂ b₃}, R b₁ b₂ → R b₂ b₃ → R b₁ b₃
  advance : ∀ b, R b b.advance
  errorAtPrevious : ∀ b cause, R b (b.errorAtPrevious cause)
  errorAtCurrent : ∀ b cause, R b (b.errorAtCurrent cause)
  recover : ∀ b, R b { b with panicking := false }
  emitByte : ∀ b byte, R b (b.emitByte byte)
  makeConstant : ∀ b v, R b (b.makeConstant v).1
  patchJump : ∀ b offset, R b (b.patchJump offset)
  addLocal : ∀ b name, R b (b.addLocal name)
  markInitialized : ∀ b, R b b.markInitialized
  nested : ∀ {body : Builder → Builder}, (∀ b, R b (body b)) → ∀ b, R b (nested body b)
  inScope : ∀ {body : Builder → Builder}, (∀ b, R b (body b)) →
    ∀ b, R b (body b.beginScope).endScope

namespace Closed

variable {R : Builder → Builder → Prop} (hR : Closed R)
include hR

theorem expect (b : Builder) (kind : TokenKind) (what : Expectation) :
    R b (b.expect kind what) := by
  unfold Builder.expect
  split
  · exact hR.advance b
  · exact hR.errorAtCurrent b _

theorem repeatWhile {more : Builder → Bool} {body : Builder → Builder} (hbody : ∀ b, R b (body b))
    (bound : List Token) (b : Builder) : R b (repeatWhile more body bound b) := by
  induction bound generalizing b with
  | nil => exact hR.refl b
  | cons _ rest ih =>
      unfold Builder.repeatWhile
      split
      · exact hR.trans (hbody b) (ih (body b))
      · exact hR.refl b

theorem synchronize (b : Builder) : R b b.synchronize :=
  hR.trans (hR.recover b) (hR.repeatWhile hR.advance _ _)

theorem emit (b : Builder) (op : Opcode) : R b (b.emit op) :=
  hR.emitByte b op.toByte

theorem emitWithByte (b : Builder) (op : Opcode) (operand : UInt8) :
    R b (b.emitWithByte op operand) :=
  hR.trans (hR.emit b op) (hR.emitByte _ operand)

theorem emitWord (b : Builder) (word : Nat) : R b (b.emitWord word) :=
  hR.trans (hR.emitByte b _) (hR.emitByte _ _)

theorem emitConstant (b : Builder) (v : Value) : R b (b.emitConstant v) :=
  hR.trans (hR.makeConstant b v) (hR.emitWithByte _ _ _)

theorem emitJump (b : Builder) (op : Opcode) : R b (b.emitJump op).1 :=
  hR.trans (hR.emit b op) (hR.emitWord _ _)

theorem emitLoop (b : Builder) (start : Nat) : R b (b.emitLoop start) := by
  unfold Builder.emitLoop
  dsimp only
  split
  · exact hR.trans (hR.emit b .loop) (hR.emitWord _ _)
  · exact hR.trans (hR.emit b .loop) (hR.trans (hR.errorAtPrevious _ _) (hR.emitWord _ _))

theorem resolveLocal (b : Builder) (name : String) : R b (b.resolveLocal name).1 := by
  unfold Builder.resolveLocal
  split
  · exact hR.refl b
  · dsimp only
    split
    · exact hR.errorAtPrevious b _
    · exact hR.refl b

theorem accessTo (b : Builder) (name : String) : R b (b.accessTo name).1 := by
  have hresolve := hR.resolveLocal b name
  unfold Builder.accessTo
  generalize b.resolveLocal name = found at hresolve ⊢
  obtain ⟨b', slot⟩ := found
  cases slot with
  | some slot => exact hresolve
  | none => exact hR.trans hresolve (hR.makeConstant _ _)

theorem declareVariable (b : Builder) : R b b.declareVariable := by
  unfold Builder.declareVariable
  split
  · exact hR.refl b
  · dsimp only
    split
    · exact hR.trans (hR.errorAtPrevious b _) (hR.addLocal _ _)
    · exact hR.addLocal b _

theorem readVariable (b : Builder) : R b b.readVariable.1 := by
  have hdeclare : R b (b.expect .identifier .variableName).declareVariable :=
    hR.trans (hR.expect b _ _) (hR.declareVariable _)
  unfold Builder.readVariable
  dsimp only
  split
  · exact hdeclare
  · exact hR.trans hdeclare (hR.makeConstant _ _)

theorem defineVariable (b : Builder) (name : UInt8) : R b (b.defineVariable name) := by
  unfold Builder.defineVariable
  split
  · exact hR.markInitialized b
  · exact hR.emitWithByte b _ _

theorem number (b : Builder) : R b b.number := by
  unfold Builder.number
  split
  · exact hR.emitConstant b _
  · exact hR.errorAtPrevious b _

section Expressions

variable {operand : Precedence → Builder → Builder} (hoperand : ∀ p b, R b (operand p b))
include hoperand

theorem namedVariable (canAssign : Bool) (b : Builder) :
    R b (b.namedVariable (operand .assignment) canAssign) := by
  have haccess := hR.accessTo b b.previous.lexeme
  unfold Builder.namedVariable
  dsimp only
  split
  · exact hR.trans haccess (hR.trans (hR.advance _) (hR.trans (hoperand _ _)
      (hR.emitWithByte _ _ _)))
  · exact hR.trans haccess (hR.emitWithByte _ _ _)

theorem lead (canAssign : Bool) (b : Builder) (l : Lead) : R b (b.lead operand canAssign l) := by
  cases l with
  | group => exact hR.trans (hoperand _ b) (hR.expect _ _ _)
  | unary op => exact hR.trans (hoperand _ b) (hR.emit _ op)
  | literal op => exact hR.emit b op
  | number => exact hR.number b
  | string => exact hR.emitConstant b _
  | identifier => exact hR.namedVariable hoperand canAssign b

theorem join (b : Builder) (j : Join) : R b (b.join operand j) := by
  cases j with
  | binary p right ops =>
      have hops (ops : List Opcode) (b : Builder) : R b (ops.foldl Builder.emit b) := by
        induction ops generalizing b with
        | nil => exact hR.refl b
        | cons op rest ih => exact hR.trans (hR.emit b op) (ih (b.emit op))
      exact hR.trans (hoperand right b) (hops ops _)
  | conjunction =>
      exact hR.trans (hR.emitJump b _) (hR.trans (hR.emit _ _)
        (hR.trans (hoperand _ _) (hR.patchJump _ _)))
  | disjunction =>
      exact hR.trans (hR.emitJump b _) (hR.trans (hR.emitJump _ _) (hR.trans (hR.patchJump _ _)
        (hR.trans (hR.emit _ _) (hR.trans (hoperand _ _) (hR.patchJump _ _)))))

theorem joinNext (b : Builder) : R b (b.joinNext operand) := by
  unfold Builder.joinNext
  dsimp only
  split
  · exact hR.trans (hR.advance b) (hR.join hoperand _ _)
  · exact hR.advance b

theorem operandWithin (p : Precedence) (b : Builder) : R b (operandWithin operand p b) := by
  unfold Builder.operandWithin
  dsimp only
  split
  · exact hR.trans (hR.advance b) (hR.errorAtPrevious _ _)
  · rename_i l _
    have hlead := hR.trans (hR.advance b) (hR.lead hoperand (decide (p = .assignment)) _ l)
    split
    · exact hR.trans (hR.trans hlead (hR.repeatWhile (hR.joinNext hoperand) _ _))
        (hR.trans (hR.advance _) (hR.errorAtPrevious _ _))
    · exact hR.trans hlead (hR.repeatWhile (hR.joinNext hoperand) _ _)

end Expressions

theorem operand (depth : Nat) (p : Precedence) (b : Builder) : R b (operand depth p b) := by
  induction depth generalizing p b with
  | zero => exact hR.refl b
  | succ depth ih => exact hR.nested (hR.operandWithin ih p) b

theorem expression (depth : Nat) (b : Builder) : R b (expression depth b) :=
  hR.operand depth .assignment b

section Statements

variable {statement expression : Builder → Builder}

theorem varDeclaration (hexpression : ∀ b, R b (expression b)) (b : Builder) :
    R b (b.varDeclaration expression) := by
  have hread := hR.readVariable b
  unfold Builder.varDeclaration
  dsimp only
  refine hR.trans ?_ (hR.trans (hR.expect _ .semicolon .semicolonAfterDeclaration)
    (hR.defineVariable _ _))
  split
  · exact hR.trans hread (hR.trans (hR.advance _) (hexpression _))
  · exact hR.trans hread (hR.emit _ _)

theorem declaration (hstatement : ∀ b, R b (statement b)) (hexpression : ∀ b, R b (expression b))
    (b : Builder) : R b (b.declaration statement expression) := by
  have hrecover (read : Builder) (hread : R b read) :
      R b (if read.panicking then read.synchronize else read) := by
    split
    · exact hR.trans hread (hR.synchronize read)
    · exact hread
  refine hrecover _ ?_
  by_cases hvar : b.sees .varWord = true
  · rw [if_pos hvar]
    exact hR.trans (hR.advance b) (hR.varDeclaration hexpression b.advance)
  · rw [if_neg hvar]
    exact hstatement b

theorem printStatement (hexpression : ∀ b, R b (expression b)) (b : Builder) :
    R b (b.printStatement expression) :=
  hR.trans (hexpression b) (hR.trans (hR.expect _ _ _) (hR.emit _ _))

theorem expressionStatement (hexpression : ∀ b, R b (expression b)) (b : Builder) :
    R b (b.expressionStatement expression) :=
  hR.trans (hexpression b) (hR.trans (hR.expect _ _ _) (hR.emit _ _))

theorem block (hstatement : ∀ b, R b (statement b)) (hexpression : ∀ b, R b (expression b))
    (b : Builder) : R b (b.block statement expression) :=
  hR.trans (hR.repeatWhile (hR.declaration hstatement hexpression) _ _) (hR.expect _ _ _)

theorem condition (hexpression : ∀ b, R b (expression b)) (opening : Expectation) (b : Builder) :
    R b (b.condition expression opening).1 :=
  hR.trans (hR.expect b _ _) (hR.trans (hexpression _) (hR.trans (hR.expect _ _ _)
    (hR.trans (hR.emitJump _ _) (hR.emit _ _))))

theorem otherwise (thenJump : Nat) (b : Builder) : R b (b.otherwise thenJump).1 :=
  hR.trans (hR.emitJump b _) (hR.trans (hR.patchJump _ _) (hR.emit _ _))

theorem ifStatement (hstatement : ∀ b, R b (statement b)) (hexpression : ∀ b, R b (expression b))
    (b : Builder) : R b (b.ifStatement statement expression) := by
  have helse := hR.trans (hR.condition hexpression .parenAfterIf b)
    (hR.trans (hstatement _) (hR.otherwise (b.condition expression .parenAfterIf).2 _))
  unfold Builder.ifStatement
  dsimp only
  refine hR.trans ?_ (hR.patchJump _ _)
  split
  · exact hR.trans helse (hR.trans (hR.advance _) (hstatement _))
  · exact helse

theorem whileStatement (hstatement : ∀ b, R b (statement b)) (hexpression : ∀ b, R b (expression b))
    (b : Builder) : R b (b.whileStatement statement expression) :=
  hR.trans (hR.condition hexpression .parenAfterWhile b) (hR.trans (hstatement _)
    (hR.trans (hR.emitLoop _ _) (hR.trans (hR.patchJump _ _) (hR.emit _ _))))

theorem forStart (hexpression : ∀ b, R b (expression b)) (b : Builder) :
    R b (b.forStart expression) := by
  unfold Builder.forStart
  split
  · exact hR.advance b
  · split
    · exact hR.trans (hR.advance b) (hR.varDeclaration hexpression _)
    · exact hR.expressionStatement hexpression b

theorem forCondition (hexpression : ∀ b, R b (expression b)) (b : Builder) :
    R b (b.forCondition expression).1 := by
  unfold Builder.forCondition
  split
  · exact hR.advance b
  · exact hR.trans (hexpression b) (hR.trans (hR.expect _ _ _)
      (hR.trans (hR.emitJump _ _) (hR.emit _ _)))

theorem forIncrement (hexpression : ∀ b, R b (expression b)) (loopStart : Nat) (b : Builder) :
    R b (b.forIncrement expression loopStart).1 := by
  unfold Builder.forIncrement
  split
  · exact hR.advance b
  · exact hR.trans (hR.emitJump b _) (hR.trans (hexpression _) (hR.trans (hR.emit _ _)
      (hR.trans (hR.expect _ _ _) (hR.trans (hR.emitLoop _ _) (hR.patchJump _ _)))))

theorem forClauses (hexpression : ∀ b, R b (expression b)) (b : Builder) :
    R b (b.forClauses expression).1 :=
  hR.trans (hR.expect b _ _) (hR.trans (hR.forStart hexpression _)
    (hR.trans (hR.forCondition hexpression _) (hR.forIncrement hexpression _ _)))

theorem forExit (exitJump : Option Nat) (b : Builder) : R b (b.forExit exitJump) := by
  cases exitJump with
  | none => exact hR.refl b
  | some jump => exact hR.trans (hR.patchJump b jump) (hR.emit _ _)

theorem forStatement (hstatement : ∀ b, R b (statement b)) (hexpression : ∀ b, R b (expression b))
    (b : Builder) : R b (b.forStatement statement expression) := by
  have hbody (b : Builder) : R b
      (((statement (b.forClauses expression).1).emitLoop (b.forClauses expression).2.2).forExit
        (b.forClauses expression).2.1) :=
    hR.trans (hR.forClauses hexpression b) (hR.trans (hstatement _)
      (hR.trans (hR.emitLoop _ _) (hR.forExit _ _)))
  exact hR.inScope hbody b

theorem returnStatement (hexpression : ∀ b, R b (expression b)) (b : Builder) :
    R b (b.returnStatement expression) := by
  unfold Builder.returnStatement
  dsimp only
  split
  · exact hR.trans (hR.errorAtPrevious b _) (hR.advance _)
  · exact hR.trans (hR.errorAtPrevious b _) (hR.trans (hexpression _) (hR.expect _ _ _))

theorem statementWithin (hstatement : ∀ b, R b (statement b))
    (hexpression : ∀ b, R b (expression b)) (b : Builder) :
    R b (statementWithin statement expression b) := by
  unfold Builder.statementWithin
  split
  · exact hR.trans (hR.advance b) (hR.printStatement hexpression _)
  · exact hR.trans (hR.advance b) (hR.forStatement hstatement hexpression _)
  · exact hR.trans (hR.advance b) (hR.ifStatement hstatement hexpression _)
  · exact hR.trans (hR.advance b) (hR.returnStatement hexpression _)
  · exact hR.trans (hR.advance b) (hR.whileStatement hstatement hexpression _)
  · exact hR.trans (hR.advance b) (hR.inScope (hR.block hstatement hexpression) _)
  · exact hR.expressionStatement hexpression b

end Statements

theorem statement (depth : Nat) (b : Builder) : R b (statement depth b) := by
  induction depth generalizing b with
  | zero => exact hR.refl b
  | succ depth ih => exact hR.nested (hR.statementWithin ih (hR.expression depth)) b

theorem topDeclaration (b : Builder) : R b b.topDeclaration :=
  hR.declaration (hR.statement _) (hR.expression _) b

/-- What holds from step to step holds of a whole compilation. -/
theorem program (tokens : List Token) : R { unread := tokens } (program tokens) :=
  hR.trans (hR.advance _) (hR.trans (hR.repeatWhile hR.topDeclaration _ _)
    (hR.trans (hR.advance _) (hR.emit _ _)))

end Closed

end StackScript.Builder
