import Mathlib.Data.List.Infix
import StackScript.Proofs.Builder.Closed

/-!
Builders without and with diagnostics. A mistake is never forgotten, so a compilation
that ends without diagnostics was clean at every moment, and at a clean builder every
step either does what its name says or leaves a diagnostic.
-/

namespace StackScript

/-- A token of the language or the end marker. -/
def Token.Sound (t : Token) : Prop := ∀ reason, t.kind ≠ .fault reason

def TokenKind.isFault : TokenKind → Bool
  | .fault _ => true
  | _ => false

theorem Token.sound_iff {t : Token} : t.Sound ↔ t.kind.isFault = false := by
  unfold Sound
  cases t.kind with
  | fault reason => simp [TokenKind.isFault]
  | _ => simp [TokenKind.isFault]

instance (t : Token) : Decidable t.Sound :=
  decidable_of_iff _ Token.sound_iff.symm

namespace Builder

/-- No mistake has been met. -/
structure Clean (b : Builder) : Prop where
  errors : b.errors = #[]
  calm : b.panicking = false

/-- A mistake has been met. -/
def Soiled (b : Builder) : Prop := b.errors ≠ #[]

theorem Clean.not_soiled {b : Builder} (h : b.Clean) : ¬ b.Soiled :=
  fun hsoiled => hsoiled h.errors

/-- At a clean builder nothing holds a diagnostic back. -/
theorem Clean.soiled_report {b : Builder} (h : b.Clean) (t : Token) (cause : Diagnostic.Cause) :
    (b.report t cause).Soiled := by
  simp [Soiled, report, h.calm]

theorem Clean.soiled_errorAtPrevious {b : Builder} (h : b.Clean) (cause : Diagnostic.Cause) :
    (b.errorAtPrevious cause).Soiled :=
  h.soiled_report b.previous cause

theorem Clean.soiled_errorAtCurrent {b : Builder} (h : b.Clean) (cause : Diagnostic.Cause) :
    (b.errorAtCurrent cause).Soiled :=
  h.soiled_report b.current cause

theorem Soiled.report {b : Builder} (h : b.Soiled) (t : Token) (cause : Diagnostic.Cause) :
    (b.report t cause).Soiled := by
  unfold Builder.report
  split
  · exact h
  · simp [Soiled]

theorem Soiled.load {unread : List Token} {b : Builder} (h : b.Soiled) :
    (load unread b).Soiled := by
  induction unread generalizing b with
  | nil => exact h
  | cons t rest ih =>
      unfold Builder.load
      split
      · exact ih (h.report t _)
      · exact h

theorem Soiled.dropLocals {b : Builder} (h : b.Soiled) (entries : List Local) :
    (Builder.dropLocals entries b).Soiled := by
  induction entries generalizing b with
  | nil => exact h
  | cons entry rest ih =>
      unfold Builder.dropLocals
      split
      · exact ih h
      · exact h

/-- A mistake is never forgotten. -/
theorem closed_soiled : Closed fun b b' => b.Soiled → b'.Soiled where
  refl _ := id
  trans h₁ h₂ := h₂ ∘ h₁
  advance _ h := Soiled.load h
  errorAtPrevious b cause h := h.report b.previous cause
  errorAtCurrent b cause h := h.report b.current cause
  recover _ h := h
  emitByte _ _ h := h
  makeConstant b v h := by
    unfold makeConstant
    split
    · exact h
    · refine Soiled.report ?_ _ _
      exact h
  patchJump b offset h := by
    unfold patchJump
    dsimp only
    split
    · exact h
    · exact h.report _ _
  addLocal b name h := by
    unfold addLocal
    split
    · exact h.report _ _
    · exact h
  markInitialized b h := by
    unfold markInitialized
    split <;> exact h
  nested hbody b h := by
    unfold nested
    split
    · refine Soiled.report (Soiled.load ?_) _ _
      exact h
    · exact hbody { b with nesting := b.nesting + 1 } h
  inScope hbody b h := by
    refine Soiled.dropLocals ?_ _
    exact hbody b.beginScope h

/-- The tokens that no rule has taken in yet. -/
def upcoming (b : Builder) : List Token := b.current :: b.unread

/-- The unread tokens end with the only end marker. -/
def Marked (b : Builder) : Prop :=
  ∃ front last, b.upcoming = front ++ [last] ∧ last.kind = .endOfFile ∧
    ∀ t ∈ front, t.kind ≠ .endOfFile

/-- What is left after some tokens have been read is still marked. -/
theorem Marked.of_upcoming {b b' : Builder} {ts : List Token} (h : b.Marked)
    (hread : b.upcoming = ts ++ b'.upcoming) : b'.Marked := by
  obtain ⟨front, last, hall, hlast, hfront⟩ := h
  have hne : b'.upcoming ≠ [] := by simp [upcoming]
  rw [hall, ← List.dropLast_append_getLast hne, ← List.append_assoc] at hread
  obtain ⟨hfronts, hlasts⟩ := List.append_inj' hread rfl
  refine ⟨b'.upcoming.dropLast, last, ?_, hlast, fun t ht => hfront t ?_⟩
  · rw [hlasts, List.dropLast_append_getLast]
  · rw [hfronts]
    exact List.mem_append_right ts ht

theorem Marked.unread_eq_nil_iff {b : Builder} (h : b.Marked) :
    b.unread = [] ↔ b.current.kind = .endOfFile := by
  obtain ⟨front, last, hall, hlast, hfront⟩ := h
  cases front with
  | nil =>
      obtain ⟨rfl, hunread⟩ : b.current = last ∧ b.unread = [] := by simpa [upcoming] using hall
      exact ⟨fun _ => hlast, fun _ => hunread⟩
  | cons t rest =>
      obtain ⟨rfl, hunread⟩ : b.current = t ∧ b.unread = rest ++ [last] := by
        simpa [upcoming] using hall
      have hne := hfront b.current (List.mem_cons_self ..)
      simp [hunread, hne]

/-- What moving on by one token does when the next token is no fault. -/
def moved (b : Builder) (t : Token) (rest : List Token) : Builder :=
  { b with previous := b.current, current := t, unread := rest }

theorem advance_of_sound {b : Builder} {t : Token} {rest : List Token}
    (hunread : b.unread = t :: rest) (ht : t.Sound) : b.advance = b.moved t rest := by
  unfold advance
  rw [hunread, load]
  split
  · rename_i reason hkind
    exact absurd hkind (ht reason)
  · rfl

theorem previous_load (unread : List Token) (b : Builder) :
    (load unread b).previous = b.previous := by
  induction unread generalizing b with
  | nil => rfl
  | cons t rest ih =>
      have hreport (cause : Diagnostic.Cause) : (b.report t cause).previous = b.previous := by
        unfold report
        split <;> rfl
      unfold load
      split
      · exact (ih _).trans (hreport _)
      · rfl

@[simp] theorem previous_advance (b : Builder) : b.advance.previous = b.current :=
  previous_load b.unread _

/-- A fault in the way leaves a diagnostic. -/
theorem advance_of_fault {b : Builder} {t : Token} {rest : List Token} (hclean : b.Clean)
    (hunread : b.unread = t :: rest) (ht : ¬ t.Sound) : b.advance.Soiled := by
  obtain ⟨reason, hkind⟩ := not_forall_not.mp ht
  unfold advance
  rw [hunread, load]
  simp only [hkind]
  refine Soiled.load (Clean.soiled_report ?_ _ _)
  exact ⟨hclean.errors, hclean.calm⟩

/-- Moving on leaves a clean builder clean, unless faults are in the way. -/
theorem Clean.advance {b : Builder} (h : b.Clean) (hsoiled : ¬ b.advance.Soiled) :
    b.advance.Clean := by
  cases hunread : b.unread with
  | nil =>
      unfold Builder.advance
      rw [hunread]
      exact ⟨h.errors, h.calm⟩
  | cons t rest =>
      by_cases ht : t.Sound
      · rw [advance_of_sound hunread ht]
        exact ⟨h.errors, h.calm⟩
      · exact absurd (advance_of_fault h hunread ht) hsoiled

/-- No level can be opened at the limit. -/
theorem nested_of_full {body : Builder → Builder} {b : Builder} (hclean : b.Clean)
    (hfull : b.nesting = nestingMax) : (nested body b).Soiled := by
  unfold nested
  rw [if_pos hfull]
  by_cases hadvance : b.advance.Soiled
  · exact hadvance.report _ _
  · exact (hclean.advance hadvance).soiled_errorAtPrevious _

/-- One level deeper. -/
def deeper (b : Builder) : Builder := { b with nesting := b.nesting + 1 }

theorem nested_of_room (body : Builder → Builder) {b : Builder} (hroom : b.nesting ≠ nestingMax) :
    nested body b = { body b.deeper with nesting := (body b.deeper).nesting - 1 } :=
  if_neg hroom

theorem expect_of_sees {b : Builder} {kind : TokenKind} {what : Expectation}
    (h : b.sees kind = true) : b.expect kind what = b.advance :=
  if_pos h

theorem expect_of_not_sees {b : Builder} {kind : TokenKind} {what : Expectation} (hclean : b.Clean)
    (h : b.sees kind = false) : (b.expect kind what).Soiled := by
  rw [expect, if_neg (Bool.eq_false_iff.mp h)]
  exact hclean.soiled_errorAtCurrent _

end Builder

end StackScript
