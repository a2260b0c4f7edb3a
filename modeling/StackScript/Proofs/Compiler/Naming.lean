import StackScript.Proofs.Compiler.Declaration
import StackScript.Proofs.Lockstep.Top

/-!
Statements at the top level that mention one global variable. Its name gets a constant if
there is room for one. If there is none that is told, but nobody is told while a panic is
being left, and either way the next statement is read calmly.
-/

namespace StackScript.Builder

open TokenKind

variable {b : Builder} {t last u : Token} {rest : List Token}

/-- What is told when the name `t` needs a constant. -/
def roomFor (b : Builder) (t : Token) : Builder :=
  if (b.chunk.addConstant (.string t.lexeme)).2.isSome then b else b.report t .tooManyConstants

theorem roomFor_of_panicking (h : b.panicking = true) (t : Token) : b.roomFor t = b := by
  unfold roomFor
  split
  · rfl
  · exact if_pos h

theorem errors_roomFor (hcalm : b.panicking = false) (t : Token) :
    (b.roomFor t).errors = if (b.chunk.addConstant (.string t.lexeme)).2.isSome then b.errors
      else b.errors.push ⟨.tooManyConstants, t.line, t.location⟩ := by
  have hreport : b.report t .tooManyConstants =
      { b with
        panicking := true, errors := b.errors.push ⟨.tooManyConstants, t.line, t.location⟩ } :=
    if_neg (ne_true_of_eq_false hcalm)
  unfold roomFor
  rw [hreport, apply_ite Builder.errors]

theorem current_roomFor (b : Builder) (t : Token) : (b.roomFor t).current = b.current := by
  unfold roomFor report
  split
  · rfl
  · split <;> rfl

/-- A step that keeps the chunk can be taken before or after, if that is so for a diagnostic. -/
theorem roomFor_comm {f : Builder → Builder} (hchunk : (f b).chunk = b.chunk)
    (hreport : (f b).report t .tooManyConstants = f (b.report t .tooManyConstants)) :
    (f b).roomFor t = f (b.roomFor t) := by
  unfold roomFor
  rw [hchunk, hreport]
  exact (apply_ite f ..).symm

theorem roomFor_deeper (b : Builder) (t : Token) : b.deeper.roomFor t = (b.roomFor t).deeper := by
  apply roomFor_comm rfl
  unfold report deeper
  dsimp only
  split <;> rfl

theorem roomFor_moved (b : Builder) (t u : Token) (rest : List Token) :
    (b.moved u rest).roomFor t = (b.roomFor t).moved u rest := by
  apply roomFor_comm (f := (moved · u rest)) rfl
  unfold report moved
  dsimp only
  split <;> rfl

theorem nameConstant_eq (b : Builder) :
    ∃ chunk index,
      chunk.constants = (b.chunk.addConstant (.string b.previous.lexeme)).1.constants ∧
      b.nameConstant b.previous.lexeme = ({ b.roomFor b.previous with chunk }, index) := by
  have hreport (chunk : Chunk) : ({ b with chunk } : Builder).errorAtPrevious .tooManyConstants =
      { b.report b.previous .tooManyConstants with chunk } := by
    unfold errorAtPrevious report
    dsimp only
    split <;> rfl
  unfold nameConstant makeConstant roomFor
  generalize b.chunk.addConstant (.string b.previous.lexeme) = added
  obtain ⟨chunk, _ | index⟩ := added
  · exact ⟨chunk, 0, rfl, congrArg (·, 0) (hreport chunk)⟩
  · exact ⟨chunk, index, rfl, rfl⟩

theorem namedVariable_of_global (expression : Builder → Builder) (canAssign : Bool)
    (hnone : b.locals = []) (hother : b.sees .assign = false) :
    ∃ chunk, chunk.constants = (b.chunk.addConstant (.string b.previous.lexeme)).1.constants ∧
      b.namedVariable expression canAssign = { b.roomFor b.previous with chunk } := by
  obtain ⟨chunk, index, hconstants, hname⟩ := b.nameConstant_eq
  have haccess : b.accessTo b.previous.lexeme =
      ({ b.roomFor b.previous with chunk }, ⟨.getGlobal, .setGlobal, index⟩) := by
    simp only [accessTo, resolveLocal, hnone, List.findIdx?_nil, hname]
  have hsees : ({ b.roomFor b.previous with chunk } : Builder).sees .assign = false := by
    rw [← hother, sees, sees, current_roomFor]
  unfold namedVariable
  rw [haccess]
  dsimp only
  rw [hsees, Bool.and_false, if_neg Bool.false_ne_true]
  refine ⟨_, ?_, rfl⟩
  exact hconstants

/-- The name of a global variable in front of a semicolon. -/
theorem expression_of_name (depth : Nat) (hupcoming : b.upcoming = t :: last :: rest)
    (ht : t.kind = .identifier) (hlast : last.kind = .semicolon) (hroom : b.nesting ≠ nestingMax)
    (hnone : b.locals = []) :
    ∃ chunk, chunk.constants = (b.chunk.addConstant (.string t.lexeme)).1.constants ∧
      expression (depth + 1) b = { (b.roomFor t).moved last rest with chunk } := by
  obtain ⟨rfl, hunread⟩ := List.cons.inj hupcoming
  have hmoved : b.deeper.advance = b.deeper.moved last rest :=
    advance_of_sound hunread (Token.sound_of_kind hlast nofun)
  have hlead : b.deeper.current.kind.lead? = some .identifier := congrArg lead? ht
  have hother : (b.deeper.moved last rest).sees .assign = false := by
    rw [sees, moved, hlast]
    rfl
  obtain ⟨chunk, hconstants, hvariable⟩ := namedVariable_of_global (b := b.deeper.moved last rest)
    (operand depth .assignment) (decide (Precedence.assignment = .assignment)) hnone hother
  have hbegun : begun (operand depth) .assignment b.deeper =
      { (b.deeper.moved last rest).roomFor b.current with chunk } := by
    rw [begun_eq hlead, hmoved]
    exact hvariable
  rw [roomFor_moved, roomFor_deeper] at hbegun
  have hjoined : joined (operand depth) .assignment (begun (operand depth) .assignment b.deeper) =
      { (b.roomFor b.current).deeper.moved last rest with chunk } := by
    rw [hbegun]
    apply repeatWhile_of_not
    apply joinsAt_of_below
    change last.kind.Below _
    rw [hlast]
    exact below_semicolon _
  have hstops : ({ (b.roomFor b.current).deeper.moved last rest with chunk } : Builder).sees
      .assign = false := hother
  refine ⟨chunk, hconstants, ?_⟩
  rw [expression, operand, nested_of_room _ hroom, operandWithin_eq hlead hjoined, hstops,
    Bool.and_false, if_neg Bool.false_ne_true]
  rfl

/-- Behind the name `t` and the semicolon `last`. -/
def pastName (b : Builder) (t last u : Token) (rest : List Token) (chunk : Chunk) : Builder :=
  { b.roomFor t with previous := last, current := u, unread := rest, chunk }

theorem expect_expression_of_name (depth : Nat) (what : Expectation)
    (hupcoming : b.upcoming = t :: last :: u :: rest) (ht : t.kind = .identifier)
    (hlast : last.kind = .semicolon) (hu : u.Sound) (hroom : b.nesting ≠ nestingMax)
    (hnone : b.locals = []) :
    ∃ chunk, chunk.constants = (b.chunk.addConstant (.string t.lexeme)).1.constants ∧
      (expression (depth + 1) b).expect .semicolon what = b.pastName t last u rest chunk := by
  obtain ⟨chunk, hconstants, hexpression⟩ :=
    expression_of_name depth hupcoming ht hlast hroom hnone
  have hsees : ({ (b.roomFor t).moved last (u :: rest) with chunk } : Builder).sees .semicolon =
      true := decide_eq_true hlast
  refine ⟨chunk, hconstants, ?_⟩
  rw [hexpression, expect_of_sees hsees, advance_of_sound rfl hu]
  rfl

/-- A statement at the top level that ends behind its semicolon, whatever was wrong in it. -/
theorem topDeclaration_of_statement {b' : Builder} (hother : b.sees .varWord = false)
    (hnesting : b.nesting = 0)
    (hwithin : statementWithin (statement nestingMax) (expression nestingMax) b.deeper = b')
    (hlast : b'.previous.kind = .semicolon) :
    b.topDeclaration = { b' with nesting := b'.nesting - 1, panicking := false } := by
  have hroom : b.nesting ≠ nestingMax := by
    rw [hnesting]
    decide
  have hstatement : statement (nestingMax + 1) b = { b' with nesting := b'.nesting - 1 } := by
    rw [statement, nested_of_room _ hroom, hwithin]
  rw [topDeclaration, declaration, hother, if_neg Bool.false_ne_true, hstatement]
  dsimp only
  split
  · -- The tokens are skipped up to a semicolon, and there is one right behind.
    exact repeatWhile_of_not (by simp [hlast]) _
  · rename_i hcalm
    rw [Bool.eq_false_iff.mpr hcalm]

/-- Behind a statement that has mentioned the global variable `t`. -/
structure Past (b : Builder) (t u : Token) (rest : List Token) (errors : Array Diagnostic)
    (b' : Builder) : Prop where
  upcoming : b'.upcoming = u :: rest
  calm : b'.panicking = false
  errors : b'.errors = errors
  constants : b'.chunk.constants = (b.chunk.addConstant (.string t.lexeme)).1.constants

section

variable {first : Token} (hupcoming : b.upcoming = first :: t :: last :: u :: rest)
  (ht : t.kind = .identifier) (hlast : last.kind = .semicolon) (hu : u.Sound)
  (hnone : b.locals = []) (hnesting : b.nesting = 0)
include hupcoming ht hlast hu hnone hnesting

theorem past_print (hfirst : first.kind = .printWord) :
    b.Past t u rest (b.roomFor t).errors b.topDeclaration := by
  obtain ⟨rfl, hunread⟩ := List.cons.inj hupcoming
  have hroom : b.nesting + 1 ≠ nestingMax := by
    rw [hnesting]
    decide
  have hmoved : b.deeper.advance = b.deeper.moved t (last :: u :: rest) :=
    advance_of_sound hunread (Token.sound_of_kind ht nofun)
  obtain ⟨chunk, hconstants, hexpression⟩ := expect_expression_of_name (t := t)
    (b := b.deeper.moved t (last :: u :: rest)) (nestingMax - 1) .semicolonAfterValue rfl ht hlast hu
    hroom hnone
  have hkind : b.deeper.current.kind = .printWord := hfirst
  have hwithin : statementWithin (statement nestingMax) (expression nestingMax) b.deeper =
      ((b.deeper.moved t (last :: u :: rest)).pastName t last u rest chunk).emit .print := by
    simp only [statementWithin, hkind]
    rw [← hexpression, ← hmoved]
    rfl
  have hother : b.sees .varWord = false := by
    rw [sees, hfirst]
    rfl
  rw [topDeclaration_of_statement hother hnesting hwithin hlast, pastName, roomFor_moved,
    roomFor_deeper]
  exact ⟨rfl, rfl, rfl, hconstants⟩

/-- The value of a `return` is read in a panic, so it is not told if there is no room for it. -/
theorem past_return (hfirst : first.kind = .returnWord) (hcalm : b.panicking = false) :
    b.Past t u rest (b.errors.push ⟨.topLevelReturn, first.line, first.location⟩)
      b.topDeclaration := by
  obtain ⟨rfl, hunread⟩ := List.cons.inj hupcoming
  have hroom : b.nesting + 1 ≠ nestingMax := by
    rw [hnesting]
    decide
  have hmoved : b.deeper.advance = b.deeper.moved t (last :: u :: rest) :=
    advance_of_sound hunread (Token.sound_of_kind ht nofun)
  have hreport : (b.deeper.moved t (last :: u :: rest)).errorAtPrevious .topLevelReturn =
      { b.deeper.moved t (last :: u :: rest) with
        panicking := true
        errors := b.errors.push ⟨.topLevelReturn, b.current.line, b.current.location⟩ } :=
    if_neg (ne_true_of_eq_false hcalm)
  generalize hb' : (b.deeper.moved t (last :: u :: rest)).errorAtPrevious .topLevelReturn = b'
    at hreport
  have hvalue : b'.sees .semicolon = false := by
    rw [hreport]
    change decide (t.kind = .semicolon) = false
    rw [ht]
    rfl
  have hupcoming' : b'.upcoming = t :: last :: u :: rest := by
    rw [hreport]
    rfl
  obtain ⟨chunk, hconstants, hexpression⟩ := expect_expression_of_name (nestingMax - 1)
    .semicolonAfterReturnValue hupcoming' ht hlast hu (by rwa [hreport]) (by rwa [hreport])
  have hkind : b.deeper.current.kind = .returnWord := hfirst
  have hwithin : statementWithin (statement nestingMax) (expression nestingMax) b.deeper =
      b'.pastName t last u rest chunk := by
    simp only [statementWithin, hkind]
    rw [hmoved, returnStatement, hb', hvalue, if_neg Bool.false_ne_true]
    exact hexpression
  have hother : b.sees .varWord = false := by
    rw [sees, hfirst]
    rfl
  rw [topDeclaration_of_statement hother hnesting hwithin hlast, pastName,
    roomFor_of_panicking (by rw [hreport]), hreport]
  rw [hreport] at hconstants
  exact ⟨rfl, rfl, rfl, hconstants⟩

end

end StackScript.Builder
