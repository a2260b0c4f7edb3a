import Mathlib.Data.List.Infix
import StackScript.Proofs.Builder.Closed

/-!
The diagnostics of a compilation. They are only ever added at the end, so whatever has been
reported stays reported in its place.
-/

namespace StackScript.Builder

theorem prefix_report (b : Builder) (t : Token) (cause : Diagnostic.Cause) :
    b.errors.toList <+: (b.report t cause).errors.toList := by
  unfold report
  split
  · exact List.prefix_rfl
  · rw [Array.toList_push]
    exact List.prefix_append _ _

theorem prefix_load (unread : List Token) (b : Builder) :
    b.errors.toList <+: (load unread b).errors.toList := by
  induction unread generalizing b with
  | nil => exact List.prefix_rfl
  | cons t rest ih =>
      unfold load
      split
      · exact (prefix_report b t _).trans (ih _)
      · exact List.prefix_rfl

@[simp] theorem errors_dropLocals (entries : List Local) (b : Builder) :
    (dropLocals entries b).errors = b.errors := by
  induction entries generalizing b with
  | nil => rfl
  | cons entry rest ih =>
      unfold dropLocals
      split
      · exact ih (b.emit .pop)
      · rfl

/-- No step takes a diagnostic back. -/
theorem closed_errors : Closed fun b b' => b.errors.toList <+: b'.errors.toList where
  refl _ := List.prefix_rfl
  trans h₁ h₂ := h₁.trans h₂
  advance b := prefix_load b.unread { b with previous := b.current }
  errorAtPrevious b cause := prefix_report b b.previous cause
  errorAtCurrent b cause := prefix_report b b.current cause
  recover _ := List.prefix_rfl
  emitByte _ _ := List.prefix_rfl
  makeConstant b v := by
    unfold makeConstant
    split
    · exact List.prefix_rfl
    · rename_i chunk _
      exact prefix_report { b with chunk } b.previous _
  patchJump b offset := by
    unfold patchJump
    dsimp only
    split
    · exact List.prefix_rfl
    · exact prefix_report b b.previous _
  addLocal b name := by
    unfold addLocal
    split
    · exact prefix_report b b.previous _
    · exact List.prefix_rfl
  markInitialized b := by
    unfold markInitialized
    split <;> exact List.prefix_rfl
  nested hbody b := by
    unfold nested
    split
    · exact (prefix_load b.unread { b with previous := b.current }).trans (prefix_report _ _ _)
    · exact hbody { b with nesting := b.nesting + 1 }
  inScope hbody b := by
    rw [endScope, errors_dropLocals]
    exact hbody b.beginScope

end StackScript.Builder
