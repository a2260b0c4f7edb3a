import StackScript.Proofs.Builder.Still
import StackScript.Proofs.Reader.Runs

/-!
The readers by what they do to the variables. At any time a number of scopes is open, and a
variable that has been declared may wait for its definition. Every piece of code leads from one
such phase to another, and in each phase only some steps can come.
-/

namespace StackScript.Reader

open Builder

/-- How many scopes are open, and whether a declared variable waits to be defined. -/
structure Phase where
  depth : Nat
  pending : Bool

/-- A step of the machine, as far as variables are concerned. -/
inductive Turn : Phase → Builder → Phase → Builder → Prop
  | still {p : Phase} {b b' : Builder} (h : Still b b') : Turn p b p b'
  /-- The current token becomes the previous one. -/
  | shift {p : Phase} (b : Builder) : Turn p b p { b with previous := b.current }
  | opens {depth : Nat} (b : Builder) : Turn ⟨depth, false⟩ b ⟨depth + 1, false⟩ b.beginScope
  | closes {depth : Nat} (b : Builder) : Turn ⟨depth + 1, false⟩ b ⟨depth, false⟩ b.endScope
  | declares {depth : Nat} (b : Builder) : Turn ⟨depth, false⟩ b ⟨depth, true⟩ b.declared.1
  | defines {depth : Nat} (name : UInt8) (b : Builder) :
      Turn ⟨depth, true⟩ b ⟨depth, false⟩ (b.defineVariable name)

/-- Declarations are read when no variable waits. -/
def Proc.Fits : Proc → Phase → Prop
  | .operand _, _ => True
  | .declaration, p | .statement, p => p.pending = false

def Loop.Fits : Loop → Phase → Prop
  | .faults, _ | .recovery, _ | .joins _, _ => True
  | .block, p | .text, p => p.pending = false

/-- Code that leads from the one phase to the other. -/
inductive Code.Leads : Code → Phase → Phase → Prop
  | skip {p : Phase} : Leads .skip p p
  | act {e : Effect Unit} {p q : Phase} (h : ∀ b, Turn p b q (e.apply b).1) : Leads (.act e) p q
  | take {p : Phase} : Leads .take p p
  | look {k : Builder → Code} {p q : Phase} (h : ∀ b, (k b).Leads p q) : Leads (.look k) p q
  | seq {c d : Code} {p q r : Phase} (h : c.Leads p q) (h' : d.Leads q r) : Leads (.seq c d) p r
  | loop {l : Loop} {p : Phase} (h : l.Fits p) : Leads (.loop l) p p
  | nested {body : Code} {p : Phase} (h : body.Leads p p) : Leads (.nested body) p p
  | call {proc : Proc} {p : Phase} (h : proc.Fits p) : Leads (.call proc) p p

namespace Code

variable {c d : Code} {p q : Phase}

theorem Leads.ite {test : Builder → Bool} (hyes : c.Leads p q) (hno : d.Leads p q) :
    (ite test c d).Leads p q := by
  apply Leads.look
  intro b
  cases test b with
  | true => exact hyes
  | false => exact hno

theorem Leads.bind {α : Type} {e : Effect α} {k : α → Code} {r : Phase}
    (h : ∀ b, Turn p b q (e.apply b).1) (hk : ∀ x, (k x).Leads q r) : (bind e k).Leads p r :=
  .look fun b => .seq (.act h) (hk (e.apply b).2)

theorem leads_still {f : Builder → Builder} {quiet : ∀ b, Quiet b (f b)} (h : ∀ b, Still b (f b)) :
    (act (.plain f quiet)).Leads p p :=
  .act fun b => .still (h b)

theorem leads_errorAtPrevious (cause : Diagnostic.Cause) (hcause : cause ≠ .alreadyDeclared) :
    (errorAtPrevious cause).Leads p p :=
  leads_still (still_errorAtPrevious cause hcause)

theorem leads_emit (op : Opcode) : (emit op).Leads p p := leads_still (still_emit op)

theorem leads_emitJump {k : Nat → Code} (op : Opcode) (hk : ∀ jump, (k jump).Leads p q) :
    (emitJump op k).Leads p q :=
  .bind (fun b => .still (still_emitJump op b)) hk

theorem leads_patchJump (offset : Nat) : (patchJump offset).Leads p p :=
  leads_still (still_patchJump offset)

theorem leads_emitLoop (start : Nat) : (emitLoop start).Leads p p :=
  leads_still (still_emitLoop start)

theorem leads_advance : advance.Leads p p :=
  .seq (.act fun b => .shift b) (.seq (.loop trivial) .take)

theorem leads_expect (kind : TokenKind) (what : Expectation) : (expect kind what).Leads p p :=
  .ite leads_advance (leads_still (still_errorAtCurrent (.expect what) nofun))

theorem leads_synchronize : synchronize.Leads p p :=
  .seq (leads_still fun _ => .of_eq rfl rfl rfl rfl) (.loop trivial)

theorem leads_expression : expression.Leads p p := .call trivial

section Expressions

theorem leads_namedVariable (canAssign : Bool) : (namedVariable canAssign).Leads p p := by
  apply Leads.look
  intro b
  apply Leads.bind (fun b' => .still (still_accessTo b.previous.lexeme b'))
  intro access
  apply Leads.ite
  · exact .seq leads_advance (.seq leads_expression (leads_still (still_emitWithByte _ _)))
  · exact leads_still (still_emitWithByte _ _)

theorem leads_lead (canAssign : Bool) (l : Lead) : (lead canAssign l).Leads p p := by
  cases l with
  | group => exact .seq leads_expression (leads_expect _ _)
  | unary op => exact .seq (.call trivial) (leads_emit op)
  | literal op => exact leads_emit op
  | number => exact leads_still still_number
  | string => exact leads_still still_string
  | identifier => exact leads_namedVariable canAssign

theorem leads_join (j : Join) : (join j).Leads p p := by
  cases j with
  | binary _ right ops => exact .seq (.call trivial) (leads_still (still_emitAll ops))
  | conjunction =>
      apply leads_emitJump
      intro endJump
      exact .seq (leads_emit _) (.seq (.call trivial) (leads_patchJump endJump))
  | disjunction =>
      apply leads_emitJump
      intro elseJump
      apply leads_emitJump
      intro endJump
      exact .seq (leads_patchJump elseJump)
        (.seq (leads_emit _) (.seq (.call trivial) (leads_patchJump endJump)))

theorem leads_joinNext : joinNext.Leads p p := by
  apply Leads.seq leads_advance
  apply Leads.look
  intro b
  cases b.previous.kind.join? with
  | some j => exact leads_join j
  | none => exact .skip

theorem leads_operandWithin (precedence : Precedence) : (operandWithin precedence).Leads p p := by
  apply Leads.seq leads_advance
  apply Leads.look
  intro b
  cases b.previous.kind.lead? with
  | none => exact leads_errorAtPrevious _ nofun
  | some l =>
      have hassignment : (ite (fun b => decide (precedence = .assignment) && b.sees .assign)
          (seq advance (errorAtPrevious .invalidAssignmentTarget)) skip).Leads p p :=
        .ite (.seq leads_advance (leads_errorAtPrevious _ nofun)) .skip
      exact .seq (leads_lead _ l) (.seq (.loop trivial) hassignment)

end Expressions

section Statements

variable {depth : Nat}

theorem leads_varDeclaration : varDeclaration.Leads ⟨depth, false⟩ ⟨depth, false⟩ := by
  apply Leads.seq (leads_expect _ _)
  apply Leads.bind (fun b => .declares b)
  intro name
  apply Leads.seq (.ite (.seq leads_advance leads_expression) (leads_emit _))
  exact .seq (leads_expect _ _) (.act fun b => .defines name b)

theorem leads_statement : statement.Leads ⟨depth, false⟩ ⟨depth, false⟩ := .call rfl

theorem leads_declaration : declaration.Leads ⟨depth, false⟩ ⟨depth, false⟩ :=
  .seq (.ite (.seq leads_advance leads_varDeclaration) leads_statement)
    (.ite leads_synchronize .skip)

theorem leads_expressionStatement : expressionStatement.Leads p p :=
  .seq leads_expression (.seq (leads_expect _ _) (leads_emit _))

theorem leads_condition {opening : Expectation} {k : Nat → Code} (hk : ∀ jump, (k jump).Leads p q) :
    (condition opening k).Leads p q := by
  apply Leads.seq (leads_expect _ _)
  apply Leads.seq leads_expression
  apply Leads.seq (leads_expect _ _)
  apply leads_emitJump
  intro failJump
  exact .seq (leads_emit _) (hk failJump)

theorem leads_ifStatement : ifStatement.Leads ⟨depth, false⟩ ⟨depth, false⟩ := by
  apply leads_condition
  intro thenJump
  apply Leads.seq leads_statement
  apply Leads.bind (fun b => .still (still_otherwise thenJump b))
  intro elseJump
  exact .seq (.ite (.seq leads_advance leads_statement) .skip) (leads_patchJump elseJump)

theorem leads_whileStatement : whileStatement.Leads ⟨depth, false⟩ ⟨depth, false⟩ := by
  apply Leads.look
  intro b
  apply leads_condition
  intro exitJump
  exact .seq leads_statement
    (.seq (leads_emitLoop _) (.seq (leads_patchJump exitJump) (leads_emit _)))

theorem leads_forStart : forStart.Leads ⟨depth, false⟩ ⟨depth, false⟩ :=
  .ite leads_advance (.ite (.seq leads_advance leads_varDeclaration) leads_expressionStatement)

theorem leads_forCondition {k : Option Nat → Code} (hk : ∀ jump, (k jump).Leads p q) :
    (forCondition k).Leads p q := by
  apply Leads.ite (.seq leads_advance (hk none))
  apply Leads.seq leads_expression
  apply Leads.seq (leads_expect _ _)
  apply leads_emitJump
  intro exitJump
  exact .seq (leads_emit _) (hk (some exitJump))

theorem leads_forIncrement {k : Nat → Code} (loopStart : Nat) (hk : ∀ start, (k start).Leads p q) :
    (forIncrement loopStart k).Leads p q := by
  apply Leads.ite (.seq leads_advance (hk loopStart))
  apply leads_emitJump
  intro bodyJump
  apply Leads.look
  intro b
  apply Leads.seq leads_expression
  apply Leads.seq (leads_emit _)
  apply Leads.seq (leads_expect _ _)
  exact .seq (leads_emitLoop loopStart) (.seq (leads_patchJump bodyJump) (hk _))

theorem leads_forStatement : forStatement.Leads ⟨depth, false⟩ ⟨depth, false⟩ := by
  apply Leads.seq (.act fun b => .opens b)
  apply Leads.seq (leads_expect _ _)
  apply Leads.seq leads_forStart
  apply Leads.look
  intro b
  apply leads_forCondition
  intro exitJump
  apply leads_forIncrement
  intro bodyEnd
  apply Leads.seq leads_statement
  apply Leads.seq (leads_emitLoop bodyEnd)
  exact .seq (leads_still (still_forExit exitJump)) (.act fun b => .closes b)

theorem leads_returnStatement : returnStatement.Leads p p :=
  .seq (leads_errorAtPrevious _ nofun)
    (.ite leads_advance (.seq leads_expression (leads_expect _ _)))

theorem leads_statementWithin : statementWithin.Leads ⟨depth, false⟩ ⟨depth, false⟩ := by
  apply Leads.look
  intro b
  split
  · exact .seq leads_advance (.seq leads_expression (.seq (leads_expect _ _) (leads_emit _)))
  · exact .seq leads_advance leads_forStatement
  · exact .seq leads_advance leads_ifStatement
  · exact .seq leads_advance leads_returnStatement
  · exact .seq leads_advance leads_whileStatement
  · apply Leads.seq leads_advance
    apply Leads.seq (.act fun b => .opens b)
    exact .seq (.seq (.loop rfl) (leads_expect _ _)) (.act fun b => .closes b)
  · exact leads_expressionStatement

end Statements

theorem leads_tooDeep : tooDeep.Leads p p := .seq leads_advance (leads_errorAtPrevious _ nofun)

theorem leads_program : program.Leads ⟨0, false⟩ ⟨0, false⟩ :=
  .seq leads_advance (.seq (.loop rfl) (.seq leads_advance (leads_emit _)))

end Code

theorem Proc.leads {proc : Proc} {p : Phase} (h : proc.Fits p) : proc.code.Leads p p := by
  obtain ⟨depth, pending⟩ := p
  cases proc with
  | operand precedence => exact .nested (Code.leads_operandWithin precedence)
  | declaration =>
      obtain rfl : pending = false := h
      exact Code.leads_declaration
  | statement =>
      obtain rfl : pending = false := h
      exact .nested Code.leads_statementWithin

theorem Loop.leads {l : Loop} {p : Phase} (h : l.Fits p) : l.round.Leads p p := by
  cases l with
  | faults => exact .take
  | recovery => exact Code.leads_advance
  | joins _ => exact Code.leads_joinNext
  | block | text => exact .call h

/-- What is still to be done leads to the end of the text, where no scope is open. -/
inductive Leading : List Task → Phase → Prop
  | nil : Leading [] ⟨0, false⟩
  | run {c : Code} {rest : List Task} {p q : Phase} (h : c.Leads p q) (hrest : Leading rest q) :
      Leading (.run c :: rest) p
  | leave {rest : List Task} {p : Phase} (hrest : Leading rest p) : Leading (.leave :: rest) p

/-- Every step is one that its phase allows, and only an effect changes the phase. -/
theorem turn_of_step {c c' : Config} {p : Phase} (h : Leading c.tasks p)
    (hstep : step c = some c') :
    ∃ q, Leading c'.tasks q ∧ Turn p c.builder q c'.builder ∧
      (q = p ∨ ∃ e rest, c.tasks = .run (.act e) :: rest ∧ ∀ b, Turn p b q (e.apply b).1) := by
  have hstays (b : Builder) : Turn p b p b := .still (.refl b)
  obtain ⟨tasks, b⟩ := c
  cases h with
  | nil => cases hstep
  | leave hrest =>
      cases hstep
      exact ⟨p, hrest, .still (.of_eq rfl rfl rfl rfl), .inl rfl⟩
  | @run code rest p q h hrest =>
      cases h with
      | skip =>
          cases hstep
          exact ⟨p, hrest, hstays b, .inl rfl⟩
      | act h =>
          cases hstep
          exact ⟨q, hrest, h b, .inr ⟨_, rest, rfl, h⟩⟩
      | take =>
          cases hstep
          exact ⟨p, hrest, .still (still_take b), .inl rfl⟩
      | look h =>
          cases hstep
          exact ⟨p, .run (h b) hrest, hstays b, .inl rfl⟩
      | seq h h' =>
          cases hstep
          exact ⟨p, .run h (.run h' hrest), hstays b, .inl rfl⟩
      | @loop l _ h =>
          simp only [step] at hstep
          split at hstep
          · cases hstep
            exact ⟨p, .run (Loop.leads h) (.run (.loop h) hrest), hstays b, .inl rfl⟩
          · cases hstep
            exact ⟨p, hrest, hstays b, .inl rfl⟩
      | nested h =>
          simp only [step] at hstep
          split at hstep
          · cases hstep
            exact ⟨p, .run Code.leads_tooDeep hrest, hstays b, .inl rfl⟩
          · cases hstep
            exact ⟨p, .run h (.leave hrest), .still (.of_eq rfl rfl rfl rfl), .inl rfl⟩
      | call h =>
          cases hstep
          exact ⟨p, .run (Proc.leads h) hrest, hstays b, .inl rfl⟩

theorem leading_start (source : String) : Leading (start source).tasks ⟨0, false⟩ :=
  .run Code.leads_program .nil

theorem leading_of_steps {source : String} {c : Config} (h : Steps (start source) c) :
    ∃ p, Leading c.tasks p := by
  induction h with
  | refl => exact ⟨_, leading_start source⟩
  | tail _ hstep ih =>
      obtain ⟨p, hleading⟩ := ih
      obtain ⟨q, hleading', -⟩ := turn_of_step hleading hstep
      exact ⟨q, hleading'⟩

end StackScript.Reader
