import StackScript.Proofs.Builder.Errors
import StackScript.Proofs.Builder.Still

/-!
What the steps that have to do with variables do to the list of locals: opening and closing a
scope, declaring a variable and defining it.
-/

namespace StackScript.Builder

variable {b : Builder}

theorem still_nameConstant (name : String) (b : Builder) : Still b (b.nameConstant name).1 :=
  still_makeConstant _ b

section Closing

theorem locals_dropLocals {inner outer : List Local}
    (hinner : ∀ entry ∈ inner, leavesAt b.scopeDepth entry = true)
    (houter : ∀ entry ∈ outer.head?, leavesAt b.scopeDepth entry = false) :
    (dropLocals (inner ++ outer) b).locals = outer := by
  induction inner generalizing b with
  | nil =>
      cases outer with
      | nil => rfl
      | cons entry rest =>
          have hstays := houter entry rfl
          rw [List.nil_append, dropLocals, if_neg (Bool.eq_false_iff.mp hstays)]
  | cons entry inner ih =>
      obtain ⟨hleaves, hinner⟩ := List.forall_mem_cons.mp hinner
      rw [List.cons_append, dropLocals, if_pos hleaves]
      exact ih (b := b.emit .pop) hinner houter

theorem scopeDepth_endScope (b : Builder) : b.endScope.scopeDepth = b.scopeDepth - 1 :=
  (levels_dropLocals b.locals { b with scopeDepth := b.scopeDepth - 1 }).2

theorem errors_endScope (b : Builder) : b.endScope.errors = b.errors :=
  errors_dropLocals b.locals { b with scopeDepth := b.scopeDepth - 1 }

end Closing

section Declaring

theorem declared_of_global (h : b.scopeDepth = 0) : Still b b.declared.1 := by
  have hdeclare : b.declareVariable = b := by
    unfold declareVariable
    rw [if_pos h]
  unfold declared
  dsimp only
  rw [hdeclare, if_neg (by omega)]
  exact still_nameConstant _ b

theorem scopeDepth_addLocal (name : String) (b : Builder) :
    (b.addLocal name).scopeDepth = b.scopeDepth := by
  unfold addLocal
  split
  · exact scopeDepth_report b _ _
  · rfl

theorem scopeDepth_declareVariable (b : Builder) : b.declareVariable.scopeDepth = b.scopeDepth := by
  unfold declareVariable
  split
  · rfl
  · dsimp only
    rw [scopeDepth_addLocal]
    split
    · exact scopeDepth_report b _ _
    · rfl

theorem declared_of_scope (h : 0 < b.scopeDepth) : b.declared.1 = b.declareVariable := by
  unfold declared
  dsimp only
  rw [scopeDepth_declareVariable, if_pos h]

theorem locals_declareVariable (h : 0 < b.scopeDepth) (hroom : b.locals.length ≠ localsMax) :
    b.declareVariable.locals = ⟨b.previous.lexeme, none⟩ :: b.locals := by
  have hadd (b' : Builder) (hlocals : b'.locals = b.locals) (name : String) :
      (b'.addLocal name).locals = ⟨name, none⟩ :: b.locals := by
    unfold addLocal
    rw [hlocals, if_neg hroom]
  unfold declareVariable
  rw [if_neg (Nat.ne_of_gt h)]
  dsimp only
  split
  · exact hadd _ (locals_report b _ _) _
  · exact hadd b rfl _

/-- A variable is said to be declared twice only when the scope has a local of that name. -/
theorem reports_declareVariable (b : Builder) :
    Reports (fun cause => cause = .alreadyDeclared →
      0 < b.scopeDepth ∧ b.declaredHere b.previous.lexeme = true) b b.declareVariable := by
  have hadd (name : String) (b' : Builder) : Reports (fun cause => cause = .alreadyDeclared →
      0 < b.scopeDepth ∧ b.declaredHere b.previous.lexeme = true) b' (b'.addLocal name) := by
    unfold addLocal
    split
    · exact .report _ nofun
    · exact .of_eq rfl
  unfold declareVariable
  split
  · exact .of_eq rfl
  · rename_i hscope
    dsimp only
    split
    · rename_i hdeclared
      have hreport : Reports (fun cause => cause = .alreadyDeclared →
          0 < b.scopeDepth ∧ b.declaredHere b.previous.lexeme = true) b
          (b.report b.previous .alreadyDeclared) :=
        .report _ fun _ => ⟨Nat.pos_of_ne_zero hscope, hdeclared⟩
      exact hreport.trans (hadd _ _)
    · exact hadd _ b

end Declaring

section Defining

theorem defineVariable_of_global (h : b.scopeDepth = 0) (name : UInt8) :
    Still b (b.defineVariable name) := by
  unfold defineVariable
  rw [if_neg (by omega)]
  exact still_emitWithByte _ _ b

theorem defineVariable_of_scope (h : 0 < b.scopeDepth) (name : UInt8) :
    b.defineVariable name = b.markInitialized := by
  unfold defineVariable
  rw [if_pos h]

theorem locals_markInitialized {entry : Local} {rest : List Local} (h : b.locals = entry :: rest) :
    b.markInitialized.locals = { entry with depth := some b.scopeDepth } :: rest := by
  unfold markInitialized
  rw [h]

/-- A declaration that is refused for want of room is defined all the same, and this moves the
innermost local, which it did not add, into its own scope. -/
theorem locals_defineVariable_of_full {entry : Local} {rest : List Local} (h : 0 < b.scopeDepth)
    (hlocals : b.locals = entry :: rest) (hfull : b.locals.length = localsMax) (name : UInt8) :
    (b.declared.1.defineVariable name).locals =
      { entry with depth := some b.scopeDepth } :: rest := by
  have hadd (b' : Builder) (hsame : b'.locals = b.locals) (x : String) :
      (b'.addLocal x).locals = b.locals := by
    unfold addLocal
    rw [hsame, if_pos hfull]
    exact (locals_report b' _ _).trans hsame
  have hdeclared : b.declared.1.locals = b.locals := by
    rw [declared_of_scope h]
    unfold declareVariable
    rw [if_neg (Nat.ne_of_gt h)]
    dsimp only
    split
    · exact hadd _ (locals_report b _ _) _
    · exact hadd b rfl _
  have hscope : b.declared.1.scopeDepth = b.scopeDepth := by
    rw [declared_of_scope h, scopeDepth_declareVariable]
  rw [defineVariable_of_scope (hscope ▸ h), locals_markInitialized (hdeclared.trans hlocals),
    hscope]

theorem scopeDepth_defineVariable (name : UInt8) (b : Builder) :
    (b.defineVariable name).scopeDepth = b.scopeDepth := by
  unfold defineVariable
  split
  · unfold markInitialized
    split <;> rfl
  · rfl

theorem errors_defineVariable (name : UInt8) (b : Builder) :
    (b.defineVariable name).errors = b.errors := by
  unfold defineVariable
  split
  · unfold markInitialized
    split <;> rfl
  · rfl

end Defining

section Reading

theorem previous_declared (b : Builder) : b.declared.1.previous = b.previous := by
  have hadd (name : String) (b : Builder) : (b.addLocal name).previous = b.previous := by
    unfold addLocal
    split
    · exact previous_report b _ _
    · rfl
  have hdeclare : b.declareVariable.previous = b.previous := by
    unfold declareVariable
    split
    · rfl
    · dsimp only
      rw [hadd]
      split
      · exact previous_report b _ _
      · rfl
  unfold declared
  dsimp only
  split
  · exact hdeclare
  · exact (still_makeConstant _ _).previous.trans hdeclare

theorem previous_endScope (b : Builder) : b.endScope.previous = b.previous := by
  have hdrop (entries : List Local) (b : Builder) :
      (dropLocals entries b).previous = b.previous := by
    induction entries generalizing b with
    | nil => rfl
    | cons entry rest ih =>
        unfold dropLocals
        split
        · exact ih (b.emit .pop)
        · rfl
  exact hdrop _ _

theorem previous_defineVariable (name : UInt8) (b : Builder) :
    (b.defineVariable name).previous = b.previous := by
  unfold defineVariable
  split
  · unfold markInitialized
    split <;> rfl
  · rfl

end Reading

end StackScript.Builder
