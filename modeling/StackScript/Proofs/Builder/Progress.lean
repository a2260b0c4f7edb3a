import Mathlib.Order.Nat
import StackScript.Proofs.Builder.Closed

/-!
Progress of the readers. Every reader of an expression, a statement or a declaration begins
by moving on, so it makes no difference what was read before, and a repetition of such
readers ends on its own before its bound does.
-/

namespace StackScript.Builder

/-- A reader that begins by moving on. -/
structure MovesOn (f : Builder → Builder) : Prop where
  previous : ∀ (b : Builder) (t : Token), f { b with previous := t } = f b
  unread : ∀ b : Builder, (f b).unread.length ≤ b.advance.unread.length

@[simp] theorem unread_report (b : Builder) (t : Token) (cause : Diagnostic.Cause) :
    (b.report t cause).unread = b.unread := by
  unfold report
  split <;> rfl

theorem unread_load (unread : List Token) (b : Builder) :
    (load unread b).unread.length ≤ unread.length - 1 := by
  induction unread generalizing b with
  | nil => exact Nat.le_refl _
  | cons t rest ih =>
      unfold load
      split
      · exact (ih _).trans (Nat.pred_le _)
      · exact Nat.le_refl _

theorem unread_advance (b : Builder) : b.advance.unread.length ≤ b.unread.length - 1 :=
  unread_load b.unread { b with previous := b.current }

/-- What a fault leaves behind has no part in what is read next. -/
theorem unread_load_congr (unread : List Token) (b b' : Builder) :
    (load unread b).unread = (load unread b').unread := by
  induction unread generalizing b b' with
  | nil => rfl
  | cons t rest ih =>
      unfold load
      split
      · exact ih _ _
      · rfl

theorem unread_dropLocals (entries : List Local) (b : Builder) :
    (dropLocals entries b).unread = b.unread := by
  induction entries generalizing b with
  | nil => rfl
  | cons entry rest ih =>
      unfold dropLocals
      split
      · exact ih (b.emit .pop)
      · rfl

/-- Only moving on makes a difference to what is unread. -/
theorem closed_of_unread {R : List Token → List Token → Prop} (hrefl : ∀ unread, R unread unread)
    (htrans : ∀ {first second third}, R first second → R second third → R first third)
    (hadvance : ∀ b : Builder, R b.unread b.advance.unread) :
    Closed fun b b' => R b.unread b'.unread where
  refl b := hrefl b.unread
  trans h₁ h₂ := htrans h₁ h₂
  advance := hadvance
  errorAtPrevious b cause := by
    rw [errorAtPrevious, unread_report]
    exact hrefl b.unread
  errorAtCurrent b cause := by
    rw [errorAtCurrent, unread_report]
    exact hrefl b.unread
  recover b := hrefl b.unread
  emitByte b _ := hrefl b.unread
  makeConstant b v := by
    unfold makeConstant
    split
    · exact hrefl b.unread
    · rw [errorAtPrevious, unread_report]
      exact hrefl b.unread
  patchJump b offset := by
    unfold patchJump
    dsimp only
    split
    · exact hrefl b.unread
    · rw [errorAtPrevious, unread_report]
      exact hrefl b.unread
  addLocal b name := by
    unfold addLocal
    split
    · rw [errorAtPrevious, unread_report]
      exact hrefl b.unread
    · exact hrefl b.unread
  markInitialized b := by
    unfold markInitialized
    split <;> exact hrefl b.unread
  nested hbody b := by
    unfold nested
    split
    · rw [errorAtPrevious, unread_report]
      exact hadvance b
    · exact hbody { b with nesting := b.nesting + 1 }
  inScope hbody b := by
    rw [endScope, unread_dropLocals]
    exact hbody b.beginScope

/-- No step brings a token back. -/
theorem closed_unread : Closed fun b b' => b'.unread.length ≤ b.unread.length :=
  closed_of_unread (R := fun first second => second.length ≤ first.length)
    (fun _ => Nat.le_refl _) (fun h₁ h₂ => h₂.trans h₁)
    fun b => (unread_advance b).trans (Nat.pred_le _)

theorem suffix_load (unread : List Token) (b : Builder) : (load unread b).unread <:+ unread := by
  induction unread generalizing b with
  | nil => exact List.suffix_rfl
  | cons t rest ih =>
      unfold load
      split
      · exact (ih _).trans (List.suffix_cons t rest)
      · exact List.suffix_cons t rest

/-- What is unread has been the end of what was unread. -/
theorem closed_suffix : Closed fun b b' => b'.unread <:+ b.unread :=
  closed_of_unread (R := fun first second => second <:+ first) (fun _ => List.suffix_rfl)
    (fun h₁ h₂ => h₂.trans h₁) fun b => suffix_load b.unread { b with previous := b.current }

/-- What the body reads, one level deeper. -/
theorem unread_nested {body : Builder → Builder} {b : Builder} (h : b.nesting ≠ nestingMax →
    (body { b with nesting := b.nesting + 1 }).unread.length ≤ b.advance.unread.length) :
    (nested body b).unread.length ≤ b.advance.unread.length := by
  unfold nested
  split
  · rw [errorAtPrevious, unread_report]
  · rename_i hroom
    exact h hroom

theorem unread_deeper (b : Builder) (n : Nat) :
    ({ b with nesting := n } : Builder).advance.unread = b.advance.unread :=
  unread_load_congr b.unread _ _

theorem unread_joinNext {operand : Precedence → Builder → Builder}
    (h : ∀ p b, (operand p b).unread.length ≤ b.unread.length) (b : Builder) :
    (joinNext operand b).unread.length ≤ b.advance.unread.length := by
  unfold joinNext
  dsimp only
  split
  · exact closed_unread.join h _ _
  · exact Nat.le_refl _

theorem unread_operandWithin {operand : Precedence → Builder → Builder}
    (h : ∀ p b, (operand p b).unread.length ≤ b.unread.length) (p : Precedence) (b : Builder) :
    (operandWithin operand p b).unread.length ≤ b.advance.unread.length := by
  unfold operandWithin
  dsimp only
  split
  · rw [errorAtPrevious, unread_report]
  · rename_i l _
    have hjoins (c : Builder) :
        (repeatWhile (joinsAt p) (joinNext operand) c.unread c).unread.length ≤ c.unread.length :=
      closed_unread.repeatWhile (closed_unread.joinNext h) _ _
    have hlead := closed_unread.lead h (decide (p = .assignment)) b.advance l
    split
    · refine (closed_unread.errorAtPrevious _ _).trans ((closed_unread.advance _).trans ?_)
      exact (hjoins _).trans hlead
    · exact (hjoins _).trans hlead

section Bodies

variable {statement expression : Builder → Builder}
  (hexpression : ∀ b, (expression b).unread.length ≤ b.unread.length)
include hexpression

theorem unread_statementWithin (hstatement : ∀ b, (statement b).unread.length ≤ b.unread.length)
    {b : Builder} (h : (expression b).unread.length ≤ b.advance.unread.length) :
    (statementWithin statement expression b).unread.length ≤ b.advance.unread.length := by
  unfold statementWithin
  split
  · exact closed_unread.printStatement hexpression _
  · exact closed_unread.forStatement hstatement hexpression _
  · exact closed_unread.ifStatement hstatement hexpression _
  · exact closed_unread.returnStatement hexpression _
  · exact closed_unread.whileStatement hstatement hexpression _
  · exact closed_unread.inScope (closed_unread.block hstatement hexpression) _
  · exact (closed_unread.expect (expression b) .semicolon .semicolonAfterExpression).trans h

theorem unread_declaration {b : Builder}
    (h : (statement b).unread.length ≤ b.advance.unread.length) :
    (declaration statement expression b).unread.length ≤ b.advance.unread.length := by
  have hsettle (read : Builder) :
      (if read.panicking then read.synchronize else read).unread.length ≤ read.unread.length := by
    split
    · exact closed_unread.synchronize read
    · exact Nat.le_refl _
  refine (hsettle _).trans ?_
  split
  · exact closed_unread.varDeclaration hexpression _
  · exact h

end Bodies

namespace MovesOn

theorem unread_le {f : Builder → Builder} (h : MovesOn f) (b : Builder) :
    (f b).unread.length ≤ b.unread.length :=
  (h.unread b).trans (closed_unread.advance b)

theorem nested {body : Builder → Builder} (h : MovesOn body) : MovesOn (nested body) where
  previous b t := by
    unfold Builder.nested
    have hbody := h.previous { b with nesting := b.nesting + 1 } t
    dsimp only at hbody ⊢
    rw [hbody]
    rfl
  unread b := unread_nested fun _ => by
    rw [← unread_deeper b (b.nesting + 1)]
    exact h.unread _

theorem operand (depth : Nat) (p : Precedence) : MovesOn (operand (depth + 1) p) :=
  nested ⟨fun _ _ => rfl, unread_operandWithin (closed_unread.operand depth) p⟩

theorem expression (depth : Nat) : MovesOn (expression (depth + 1)) :=
  operand depth .assignment

theorem statementWithin {statement expression : Builder → Builder}
    (hstatement : ∀ b, (statement b).unread.length ≤ b.unread.length)
    (hexpression : MovesOn expression) : MovesOn (statementWithin statement expression) where
  previous b t := by
    unfold Builder.statementWithin expressionStatement
    rw [hexpression.previous]
    rfl
  unread b := unread_statementWithin hexpression.unread_le hstatement (hexpression.unread b)

theorem declaration {statement expression : Builder → Builder}
    (hexpression : ∀ b, (expression b).unread.length ≤ b.unread.length)
    (hstatement : MovesOn statement) : MovesOn (Builder.declaration statement expression) where
  previous b t := by
    unfold Builder.declaration
    rw [hstatement.previous]
    rfl
  unread b := unread_declaration hexpression (hstatement.unread b)

end MovesOn

theorem movesOn_topDeclaration : MovesOn topDeclaration :=
  MovesOn.declaration (closed_unread.expression _)
    (MovesOn.nested (MovesOn.statementWithin (closed_unread.statement _) (MovesOn.expression _)))

/-- A repetition of which every round reads a token ends before any bound that is not
shorter than the unread tokens. -/
theorem repeatWhile_bound {I : Builder → Prop} {more : Builder → Bool} {body : Builder → Builder}
    (hround : ∀ b, I b → more b = true → I (body b) ∧ (body b).unread.length < b.unread.length)
    (bound bound' : List Token) {b : Builder} (hb : I b) (h : b.unread.length ≤ bound.length)
    (h' : b.unread.length ≤ bound'.length) :
    repeatWhile more body bound b = repeatWhile more body bound' b := by
  have hdone {b : Builder} (hb : I b) (h : b.unread.length ≤ 0) : more b = false :=
    Bool.eq_false_iff.mpr fun hmore => absurd (hround b hb hmore).2 (by omega)
  induction bound generalizing bound' b with
  | nil =>
      cases bound' with
      | nil => rfl
      | cons t rest => simp [repeatWhile, hdone hb h]
  | cons t rest ih =>
      cases bound' with
      | nil => simp [repeatWhile, hdone hb h']
      | cons t' rest' =>
          unfold repeatWhile
          split
          · rename_i hmore
            obtain ⟨hnext, hshorter⟩ := hround b hb hmore
            simp only [List.length_cons] at h h'
            exact ih rest' hnext (by omega) (by omega)
          · rfl

end StackScript.Builder
