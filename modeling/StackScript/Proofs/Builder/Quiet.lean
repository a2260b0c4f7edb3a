import StackScript.Proofs.Builder.Progress

/-!
Steps that read nothing. Writing code, keeping track of variables and reporting a mistake leave the
tokens to come and the level as they are.
-/

namespace StackScript.Builder

/-- The later builder has the same tokens before it and stands on the same level. -/
structure Quiet (b b' : Builder) : Prop where
  unread : b'.unread = b.unread
  current : b'.current = b.current
  nesting : b'.nesting = b.nesting

theorem Quiet.refl (b : Builder) : Quiet b b := ⟨rfl, rfl, rfl⟩

theorem Quiet.trans {b b' b'' : Builder} (h : Quiet b b') (h' : Quiet b' b'') : Quiet b b'' :=
  ⟨h'.unread.trans h.unread, h'.current.trans h.current, h'.nesting.trans h.nesting⟩

theorem quiet_report (b : Builder) (t : Token) (cause : Diagnostic.Cause) :
    Quiet b (b.report t cause) := by
  unfold report
  split <;> exact ⟨rfl, rfl, rfl⟩

theorem quiet_errorAtPrevious (cause : Diagnostic.Cause) (b : Builder) :
    Quiet b (b.errorAtPrevious cause) :=
  quiet_report b b.previous cause

theorem quiet_errorAtCurrent (cause : Diagnostic.Cause) (b : Builder) :
    Quiet b (b.errorAtCurrent cause) :=
  quiet_report b b.current cause

theorem quiet_emit (op : Opcode) (b : Builder) : Quiet b (b.emit op) := ⟨rfl, rfl, rfl⟩

theorem quiet_emitWithByte (op : Opcode) (operand : UInt8) (b : Builder) :
    Quiet b (b.emitWithByte op operand) :=
  ⟨rfl, rfl, rfl⟩

theorem quiet_emitJump (op : Opcode) (b : Builder) : Quiet b (b.emitJump op).1 := ⟨rfl, rfl, rfl⟩

theorem quiet_emitAll (ops : List Opcode) (b : Builder) : Quiet b (ops.foldl emit b) := by
  induction ops generalizing b with
  | nil => exact .refl b
  | cons op rest ih => exact (quiet_emit op b).trans (ih (b.emit op))

theorem quiet_makeConstant (v : Value) (b : Builder) : Quiet b (b.makeConstant v).1 := by
  unfold makeConstant
  split
  · exact ⟨rfl, rfl, rfl⟩
  · rename_i chunk _
    have hpool : Quiet b { b with chunk } := ⟨rfl, rfl, rfl⟩
    exact hpool.trans (quiet_errorAtPrevious _ _)

theorem quiet_emitConstant (v : Value) (b : Builder) : Quiet b (b.emitConstant v) :=
  (quiet_makeConstant v b).trans (quiet_emitWithByte _ _ _)

theorem quiet_patchJump (offset : Nat) (b : Builder) : Quiet b (b.patchJump offset) := by
  unfold patchJump
  dsimp only
  split
  · exact ⟨rfl, rfl, rfl⟩
  · exact quiet_errorAtPrevious _ b

theorem quiet_emitLoop (start : Nat) (b : Builder) : Quiet b (b.emitLoop start) := by
  unfold emitLoop
  dsimp only
  split
  · exact ⟨rfl, rfl, rfl⟩
  · have hreport := quiet_errorAtPrevious .loopTooLarge (b.emit .loop)
    exact ⟨hreport.unread, hreport.current, hreport.nesting⟩

theorem quiet_beginScope (b : Builder) : Quiet b b.beginScope := ⟨rfl, rfl, rfl⟩

theorem quiet_dropLocals (entries : List Local) (b : Builder) : Quiet b (dropLocals entries b) := by
  induction entries generalizing b with
  | nil => exact ⟨rfl, rfl, rfl⟩
  | cons entry rest ih =>
      unfold dropLocals
      split
      · exact (quiet_emit .pop b).trans (ih (b.emit .pop))
      · exact ⟨rfl, rfl, rfl⟩

theorem quiet_endScope (b : Builder) : Quiet b b.endScope := by
  have hdrop := quiet_dropLocals b.locals { b with scopeDepth := b.scopeDepth - 1 }
  exact ⟨hdrop.unread, hdrop.current, hdrop.nesting⟩

theorem quiet_addLocal (name : String) (b : Builder) : Quiet b (b.addLocal name) := by
  unfold addLocal
  split
  · exact quiet_errorAtPrevious _ b
  · exact ⟨rfl, rfl, rfl⟩

theorem quiet_declareVariable (b : Builder) : Quiet b b.declareVariable := by
  unfold declareVariable
  split
  · exact .refl b
  · dsimp only
    split
    · exact (quiet_errorAtPrevious _ b).trans (quiet_addLocal _ _)
    · exact quiet_addLocal _ b

theorem quiet_defineVariable (name : UInt8) (b : Builder) : Quiet b (b.defineVariable name) := by
  unfold defineVariable
  split
  · unfold markInitialized
    split <;> exact ⟨rfl, rfl, rfl⟩
  · exact quiet_emitWithByte _ _ b

theorem quiet_accessTo (name : String) (b : Builder) : Quiet b (b.accessTo name).1 := by
  have hresolve : Quiet b (b.resolveLocal name).1 := by
    unfold resolveLocal
    split
    · exact .refl b
    · dsimp only
      split
      · exact quiet_errorAtPrevious _ b
      · exact .refl b
  unfold accessTo
  generalize b.resolveLocal name = found at hresolve ⊢
  obtain ⟨b', slot⟩ := found
  cases slot with
  | some slot => exact hresolve
  | none => exact hresolve.trans (quiet_makeConstant _ _)

theorem quiet_number (b : Builder) : Quiet b b.number := by
  unfold number
  split
  · exact quiet_emitConstant _ b
  · exact quiet_errorAtPrevious _ b

theorem quiet_string (b : Builder) : Quiet b b.string := quiet_emitConstant _ b

end StackScript.Builder
