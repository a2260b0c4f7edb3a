import StackScript.Proofs.Lockstep.Tail
import StackScript.Proofs.Lockstep.Top
import StackScript.Proofs.Reader.Code

/-!
Steps that have nothing to do with variables: the locals and the scope stay as they are, and
nothing is said about a variable declared twice.
-/

namespace StackScript.Builder

/-- The later builder has reported more, all of it for such causes. -/
def Reports (P : Diagnostic.Cause → Prop) (b b' : Builder) : Prop :=
  ∃ reported, b'.errors.toList = b.errors.toList ++ reported ∧ ∀ d ∈ reported, P d.cause

/-- The later builder has the same variables in the same scopes. -/
structure Still (b b' : Builder) : Prop where
  locals : b'.locals = b.locals
  scopeDepth : b'.scopeDepth = b.scopeDepth
  previous : b'.previous = b.previous
  reports : Reports (· ≠ .alreadyDeclared) b b'

variable {b b' b'' : Builder}

namespace Reports

variable {P Q : Diagnostic.Cause → Prop}

theorem of_eq (h : b'.errors = b.errors) : Reports P b b' :=
  ⟨[], by rw [h, List.append_nil], nofun⟩

theorem trans (h : Reports P b b') (h' : Reports P b' b'') : Reports P b b'' := by
  obtain ⟨reported, herrors, hcauses⟩ := h
  obtain ⟨reported', herrors', hcauses'⟩ := h'
  refine ⟨reported ++ reported', ?_, ?_⟩
  · rw [herrors', herrors, List.append_assoc]
  · intro d hd
    obtain hd | hd := List.mem_append.mp hd
    · exact hcauses d hd
    · exact hcauses' d hd

/-- A mistake is reported by one diagnostic, or held back. -/
theorem report (t : Token) {cause : Diagnostic.Cause} (h : P cause) :
    Reports P b (b.report t cause) := by
  unfold Builder.report
  split
  · exact of_eq rfl
  · refine ⟨[⟨cause, t.line, t.location⟩], Array.toList_push, ?_⟩
    intro d hd
    rwa [List.mem_singleton.mp hd]

theorem of_mem_drop (h : Reports P b b') {d : Diagnostic}
    (hd : d ∈ b'.errors.toList.drop b.errors.size) : P d.cause := by
  obtain ⟨reported, herrors, hcauses⟩ := h
  rw [herrors, ← Array.length_toList, List.drop_left] at hd
  exact hcauses d hd

end Reports

theorem Still.of_eq (hlocals : b'.locals = b.locals) (hscope : b'.scopeDepth = b.scopeDepth)
    (hprevious : b'.previous = b.previous) (herrors : b'.errors = b.errors) : Still b b' :=
  ⟨hlocals, hscope, hprevious, .of_eq herrors⟩

theorem Still.refl (b : Builder) : Still b b := .of_eq rfl rfl rfl rfl

theorem Still.trans (h : Still b b') (h' : Still b' b'') : Still b b'' :=
  ⟨h'.locals.trans h.locals, h'.scopeDepth.trans h.scopeDepth, h'.previous.trans h.previous,
    h.reports.trans h'.reports⟩

theorem still_report (b : Builder) (t : Token) (cause : Diagnostic.Cause)
    (hcause : cause ≠ .alreadyDeclared) : Still b (b.report t cause) :=
  ⟨locals_report b t cause, scopeDepth_report b t cause, previous_report b t cause,
    .report t hcause⟩

theorem still_errorAtPrevious (cause : Diagnostic.Cause) (hcause : cause ≠ .alreadyDeclared)
    (b : Builder) : Still b (b.errorAtPrevious cause) :=
  still_report b b.previous cause hcause

theorem still_errorAtCurrent (cause : Diagnostic.Cause) (hcause : cause ≠ .alreadyDeclared)
    (b : Builder) : Still b (b.errorAtCurrent cause) :=
  still_report b b.current cause hcause

theorem still_emit (op : Opcode) (b : Builder) : Still b (b.emit op) := .of_eq rfl rfl rfl rfl

theorem still_emitWithByte (op : Opcode) (operand : UInt8) (b : Builder) :
    Still b (b.emitWithByte op operand) :=
  .of_eq rfl rfl rfl rfl

theorem still_emitJump (op : Opcode) (b : Builder) : Still b (b.emitJump op).1 :=
  .of_eq rfl rfl rfl rfl

theorem still_emitAll (ops : List Opcode) (b : Builder) : Still b (ops.foldl emit b) := by
  induction ops generalizing b with
  | nil => exact .refl b
  | cons op rest ih => exact (still_emit op b).trans (ih (b.emit op))

theorem still_makeConstant (v : Value) (b : Builder) : Still b (b.makeConstant v).1 := by
  unfold makeConstant
  split
  · exact .of_eq rfl rfl rfl rfl
  · rename_i chunk _
    have hpool : Still b { b with chunk } := .of_eq rfl rfl rfl rfl
    exact hpool.trans (still_errorAtPrevious .tooManyConstants (by decide) _)

theorem still_emitConstant (v : Value) (b : Builder) : Still b (b.emitConstant v) :=
  (still_makeConstant v b).trans (still_emitWithByte _ _ _)

theorem still_patchJump (offset : Nat) (b : Builder) : Still b (b.patchJump offset) := by
  unfold patchJump
  dsimp only
  split
  · exact .of_eq rfl rfl rfl rfl
  · exact still_errorAtPrevious .jumpTooLarge nofun b

theorem still_emitLoop (start : Nat) (b : Builder) : Still b (b.emitLoop start) := by
  have hword (word : Nat) (b : Builder) : Still b (b.emitWord word) := .of_eq rfl rfl rfl rfl
  unfold emitLoop
  dsimp only
  split
  · exact (still_emit .loop b).trans (hword _ _)
  · have hreport := still_errorAtPrevious .loopTooLarge nofun (b.emit .loop)
    exact ((still_emit .loop b).trans hreport).trans (hword _ _)

theorem still_accessTo (name : String) (b : Builder) : Still b (b.accessTo name).1 := by
  have hresolve : Still b (b.resolveLocal name).1 := by
    unfold resolveLocal
    split
    · exact .refl b
    · dsimp only
      split
      · exact still_errorAtPrevious .readInOwnInitializer nofun b
      · exact .refl b
  unfold accessTo
  generalize b.resolveLocal name = found at hresolve ⊢
  obtain ⟨b', slot⟩ := found
  cases slot with
  | some slot => exact hresolve
  | none => exact hresolve.trans (still_makeConstant _ _)

theorem still_number (b : Builder) : Still b b.number := by
  unfold number
  split
  · exact still_emitConstant _ b
  · exact still_errorAtPrevious .expectExpression nofun b

theorem still_string (b : Builder) : Still b b.string := still_emitConstant _ b

theorem still_otherwise (thenJump : Nat) (b : Builder) : Still b (b.otherwise thenJump).1 :=
  (still_emitJump .jump b).trans ((still_patchJump thenJump _).trans (still_emit .pop _))

theorem still_forExit (exitJump : Option Nat) (b : Builder) : Still b (b.forExit exitJump) := by
  cases exitJump with
  | none => exact .refl b
  | some jump => exact (still_patchJump jump b).trans (still_emit .pop _)

theorem still_take (b : Builder) : Still b b.take := by
  unfold take
  split
  · exact .refl b
  · rename_i t rest _
    split
    · rename_i reason _
      have hrest (b : Builder) : Still b { b with unread := rest } := .of_eq rfl rfl rfl rfl
      exact (still_report b t (.lexical reason) nofun).trans (hrest _)
    · exact .of_eq rfl rfl rfl rfl

end StackScript.Builder
