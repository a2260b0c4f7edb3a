import StackScript.Proofs.Builder.Closed

/-!
Levels and scopes. Whatever opens one closes it again, however the reading of what stands
inside it went.
-/

namespace StackScript.Builder

@[simp] theorem nesting_report (b : Builder) (t : Token) (cause : Diagnostic.Cause) :
    (b.report t cause).nesting = b.nesting := by
  unfold report
  split <;> rfl

@[simp] theorem scopeDepth_report (b : Builder) (t : Token) (cause : Diagnostic.Cause) :
    (b.report t cause).scopeDepth = b.scopeDepth := by
  unfold report
  split <;> rfl

@[simp] theorem levels_load (unread : List Token) (b : Builder) :
    (load unread b).nesting = b.nesting ∧ (load unread b).scopeDepth = b.scopeDepth := by
  induction unread generalizing b with
  | nil => exact ⟨rfl, rfl⟩
  | cons t rest ih =>
      unfold load
      split
      · simpa using ih (b.report t _)
      · exact ⟨rfl, rfl⟩

@[simp] theorem levels_dropLocals (entries : List Local) (b : Builder) :
    (dropLocals entries b).nesting = b.nesting ∧
      (dropLocals entries b).scopeDepth = b.scopeDepth := by
  induction entries generalizing b with
  | nil => exact ⟨rfl, rfl⟩
  | cons entry rest ih =>
      unfold dropLocals
      split
      · exact ih (b.emit .pop)
      · exact ⟨rfl, rfl⟩

/-- Every step ends on the level and in the scope that it started in. -/
theorem closed_levels :
    Closed fun b b' => b'.nesting = b.nesting ∧ b'.scopeDepth = b.scopeDepth where
  refl _ := ⟨rfl, rfl⟩
  trans h₁ h₂ := ⟨h₂.1.trans h₁.1, h₂.2.trans h₁.2⟩
  advance b := levels_load b.unread { b with previous := b.current }
  errorAtPrevious _ _ := ⟨nesting_report _ _ _, scopeDepth_report _ _ _⟩
  errorAtCurrent _ _ := ⟨nesting_report _ _ _, scopeDepth_report _ _ _⟩
  recover _ := ⟨rfl, rfl⟩
  emitByte _ _ := ⟨rfl, rfl⟩
  makeConstant b v := by
    unfold makeConstant
    split
    · exact ⟨rfl, rfl⟩
    · exact ⟨nesting_report _ _ _, scopeDepth_report _ _ _⟩
  patchJump b offset := by
    unfold patchJump
    dsimp only
    split
    · exact ⟨rfl, rfl⟩
    · exact ⟨nesting_report _ _ _, scopeDepth_report _ _ _⟩
  addLocal b name := by
    unfold addLocal
    split
    · exact ⟨nesting_report _ _ _, scopeDepth_report _ _ _⟩
    · exact ⟨rfl, rfl⟩
  markInitialized b := by
    unfold markInitialized
    split <;> exact ⟨rfl, rfl⟩
  nested hbody b := by
    unfold nested
    split
    · have hread := levels_load b.unread { b with previous := b.current }
      exact ⟨(nesting_report _ _ _).trans hread.1, (scopeDepth_report _ _ _).trans hread.2⟩
    · obtain ⟨hnesting, hscope⟩ := hbody { b with nesting := b.nesting + 1 }
      exact ⟨by simp [hnesting], hscope⟩
  inScope hbody b := by
    obtain ⟨hnesting, hscope⟩ := hbody b.beginScope
    have hends (inner : Builder) := levels_dropLocals inner.locals
      { inner with scopeDepth := inner.scopeDepth - 1 }
    refine ⟨(hends _).1.trans hnesting, (hends _).2.trans ?_⟩
    exact congrArg (· - 1) hscope

end StackScript.Builder
