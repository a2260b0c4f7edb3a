import StackScript.Proofs.Lockstep.Statement
import StackScript.Proofs.Token.Behind

/-!
The same declarations further on in a text. Compiled behind others they read the same
tokens, write as many bytes and meet the same mistakes as on their own, only on later
lines, as long as neither pool of constants overflows.
-/

namespace StackScript

/-- The same diagnostic some lines later. -/
def Diagnostic.later (lines : Nat) (d : Diagnostic) : Diagnostic :=
  { d with line := d.line + lines }

namespace Builder

/-- The first builder stands behind the text `front` and what had been compiled at `begun`,
where the second one stands at the beginning. -/
structure Further (front : List Char) (begun b b' : Builder) : Prop where
  unread : b.unread = b'.unread.map (Token.behind front)
  current : b.current = b'.current.behind front
  previous : b.previous = b'.previous.behind front
  panicking : b.panicking = b'.panicking
  locals : b.locals = b'.locals
  scopeDepth : b.scopeDepth = b'.scopeDepth
  nesting : b.nesting = b'.nesting
  errors : b.errors = begun.errors ++ b'.errors.map (Diagnostic.later (front.count '\n'))
  size : b.chunk.size = b'.chunk.size + begun.chunk.size
  lines : b.chunk.lines = begun.chunk.lines ++ b'.chunk.lines.map (· + front.count '\n')

/-- Too many constants have been found. -/
def Overflows (b : Builder) : Prop := ∃ d ∈ b.errors, d.cause = .tooManyConstants

namespace Further

variable {front : List Char} {begun b b' : Builder}

theorem report (h : Further front begun b b') (t : Token) (cause : Diagnostic.Cause) :
    Further front begun (b.report (t.behind front) cause) (b'.report t cause) := by
  unfold Builder.report
  rw [h.panicking]
  split
  · exact h
  · refine { h with panicking := rfl, errors := ?_ }
    rw [h.errors, Array.map_push, ← Array.append_push]
    rfl

theorem errorAtCurrent (h : Further front begun b b') (cause : Diagnostic.Cause) :
    Further front begun (b.errorAtCurrent cause) (b'.errorAtCurrent cause) := by
  rw [Builder.errorAtCurrent, h.current]
  exact h.report b'.current cause

theorem errorAtPrevious (h : Further front begun b b') (cause : Diagnostic.Cause) :
    Further front begun (b.errorAtPrevious cause) (b'.errorAtPrevious cause) := by
  rw [Builder.errorAtPrevious, h.previous]
  exact h.report b'.previous cause

theorem load (h : Further front begun b b') (unread : List Token) :
    Further front begun (load (unread.map (Token.behind front)) b) (Builder.load unread b') := by
  induction unread generalizing b b' with
  | nil => exact { h with unread := rfl }
  | cons t rest ih =>
      have hkind : (t.behind front).kind = t.kind := rfl
      rw [List.map_cons]
      unfold Builder.load
      rw [hkind]
      split
      · exact ih (h.report t _)
      · exact { h with unread := rfl, current := rfl }

theorem advance (h : Further front begun b b') : Further front begun b.advance b'.advance := by
  have hmoved : Further front begun { b with previous := b.current }
      { b' with previous := b'.current } := { h with previous := h.current }
  have hload := hmoved.load b'.unread
  rwa [← h.unread] at hload

theorem emitByte (h : Further front begun b b') (byte byte' : UInt8) :
    Further front begun (b.emitByte byte) (b'.emitByte byte') := by
  refine { h with size := ?_, lines := ?_ }
  · simp only [Builder.emitByte, Chunk.size_write, h.size]
    omega
  · show b.chunk.lines.push b.previous.line =
      begun.chunk.lines ++ (b'.chunk.lines.push b'.previous.line).map (· + front.count '\n')
    rw [h.lines, h.previous, Array.map_push, ← Array.append_push]
    rfl

/-- Constants have no part in this. -/
theorem constants (h : Further front begun b b') (constants constants' : Array Value) :
    Further front begun { b with chunk.constants := constants }
      { b' with chunk.constants := constants' } :=
  { h with }

theorem patchJump (h : Further front begun b b') (offset : Nat) :
    Further front begun (b.patchJump (offset + begun.chunk.size)) (b'.patchJump offset) := by
  have hdistance : b.chunk.size - (offset + begun.chunk.size) - 2 = b'.chunk.size - offset - 2 := by
    rw [h.size, Nat.add_sub_add_right]
  unfold Builder.patchJump
  dsimp only
  rw [hdistance]
  split
  · refine { h with size := ?_ }
    simpa [Chunk.size] using h.size
  · exact h.errorAtPrevious .jumpTooLarge

theorem dropLocals (h : Further front begun b b') (entries : List Local) :
    Further front begun (dropLocals entries b) (Builder.dropLocals entries b') := by
  induction entries generalizing b b' with
  | nil => exact { h with locals := rfl }
  | cons entry rest ih =>
      have hleaves : leavesAt b.scopeDepth entry = leavesAt b'.scopeDepth entry := by
        rw [h.scopeDepth]
      unfold Builder.dropLocals
      rw [hleaves]
      split
      · exact ih (h.emitByte _ _)
      · exact { h with locals := rfl }

theorem endScope (h : Further front begun b b') : Further front begun b.endScope b'.endScope := by
  have hdepth : Further front begun { b with scopeDepth := b.scopeDepth - 1 }
      { b' with scopeDepth := b'.scopeDepth - 1 } :=
    { h with scopeDepth := congrArg (· - 1) h.scopeDepth }
  have hends :
      b.endScope = Builder.dropLocals b'.locals { b with scopeDepth := b.scopeDepth - 1 } :=
    congrArg (Builder.dropLocals · { b with scopeDepth := b.scopeDepth - 1 }) h.locals
  rw [hends]
  exact hdepth.dropLocals b'.locals

theorem addLocal (h : Further front begun b b') (name : String) :
    Further front begun (b.addLocal name) (b'.addLocal name) := by
  unfold Builder.addLocal
  rw [h.locals]
  split
  · exact h.errorAtPrevious .tooManyLocals
  · exact { h with locals := rfl }

theorem markInitialized (h : Further front begun b b') :
    Further front begun b.markInitialized b'.markInitialized := by
  have hlocals := h.locals
  unfold Builder.markInitialized
  rw [hlocals]
  split
  · exact h
  · refine { h with locals := ?_ }
    dsimp only
    rw [h.scopeDepth]

end Further

theorem persists_overflows : Persists Overflows := by
  have hmono {b b' : Builder} (hkept : b.errors.toList <+: b'.errors.toList) (h : b.Overflows) :
      b'.Overflows := by
    obtain ⟨d, hd, hcause⟩ := h
    exact ⟨d, Array.mem_toList_iff.mp (hkept.subset (Array.mem_toList_iff.mpr hd)), hcause⟩
  exact {
    advance := hmono (closed_errors.advance _)
    report := fun t cause => hmono (prefix_report _ t cause)
    recover := id
    emitByte := fun _ => id
    constants := fun _ => id
    code := fun _ => id
    locals := fun _ => id
    scopeDepth := fun _ => id
    nesting := fun _ => id }

theorem overflows_report {b : Builder} (hcalm : b.panicking = false) (t : Token) :
    (b.report t .tooManyConstants).Overflows := by
  unfold report
  rw [hcalm]
  exact ⟨_, Array.mem_push_self, rfl⟩

/-- A constant is in the pool, is put there, or finds no room. -/
theorem makeConstant_eq (b : Builder) (v : Value) :
    (∃ constants, (b.makeConstant v).1 = { b with chunk.constants := constants }) ∨
      (b.makeConstant v).1 = b.errorAtPrevious .tooManyConstants := by
  unfold makeConstant Chunk.addConstant
  split
  · rename_i heq
    split at heq
    · cases heq
      exact Or.inl ⟨_, rfl⟩
    · dsimp only at heq
      split at heq
      · cases heq
      · cases heq
        exact Or.inl ⟨_, rfl⟩
  · rename_i heq
    split at heq
    · cases heq
    · dsimp only at heq
      split at heq
      · cases heq
        exact Or.inr rfl
      · cases heq

/-- One pool may overflow where the other has room, unless both builders are panicking. -/
theorem Further.makeConstant {front : List Char} {begun b b' : Builder}
    (h : Further front begun b b') (v : Value) :
    Further front begun (b.makeConstant v).1 (b'.makeConstant v).1 ∨
      (b.makeConstant v).1.Overflows ∨ (b'.makeConstant v).1.Overflows := by
  have hpanic {b : Builder} (h : b.panicking = true) : b.errorAtPrevious .tooManyConstants = b := by
    rw [Builder.errorAtPrevious, Builder.report, if_pos h]
  obtain ⟨constants, hb⟩ | hb := makeConstant_eq b v <;>
    obtain ⟨constants', hb'⟩ | hb' := makeConstant_eq b' v
  · rw [hb, hb']
    exact Or.inl (h.constants constants constants')
  · rw [hb, hb']
    cases hcalm : b'.panicking with
    | true =>
        rw [hpanic hcalm]
        exact Or.inl (h.constants constants b'.chunk.constants)
    | false => exact Or.inr (Or.inr (overflows_report hcalm _))
  · rw [hb, hb']
    cases hcalm : b.panicking with
    | true =>
        rw [hpanic hcalm]
        exact Or.inl (h.constants b.chunk.constants constants')
    | false => exact Or.inr (Or.inl (overflows_report hcalm _))
  · rw [hb, hb']
    exact Or.inl (h.errorAtPrevious .tooManyConstants)

/-- Further on in a text a compilation goes as at its beginning, until the constants of one
of them no longer fit. -/
def further (front : List Char) (begun : Builder) : Lockstep where
  loose := Further front begun
  tight := Further front begun
  operands _ _ := True
  shift := begun.chunk.size
  Exit := Bool
  left e b := e = true → b.Overflows
  right e b := e = false → b.Overflows
  persists_left _ := persists_overflows.imp _
  persists_right _ := persists_overflows.imp _
  loosen := id
  unread := Or.inl fun h => by rw [h.unread, List.length_map]
  resembles h := by
    refine ⟨?_, ?_, ?_, h.panicking, h.locals, h.scopeDepth, h.nesting, h.size⟩
    · rw [h.current, Token.behind]
    · rw [h.previous, Token.behind]
    · rw [h.previous, Token.behind]
  same_operand _ := trivial
  advance h := Or.inl h.advance
  errorAtCurrent cause _ h := h.errorAtCurrent cause
  errorAtPrevious cause _ h := h.errorAtPrevious cause
  recover h := { h with panicking := rfl }
  emitByte h _ := h.emitByte _ _
  makeConstant v h := by
    obtain hkept | hleft | hright := h.makeConstant v
    · exact Or.inl ⟨hkept, trivial⟩
    · exact Or.inr ⟨true, fun _ => hleft, nofun⟩
    · exact Or.inr ⟨false, nofun, fun _ => hright⟩
  patchJump offset h := h.patchJump offset
  addLocal name _ h := h.addLocal name
  markInitialized _ h := h.markInitialized
  beginScope h := { h with scopeDepth := congrArg (· + 1) h.scopeDepth }
  endScope h := h.endScope

theorem levels_further (front : List Char) (begun : Builder) : (further front begun).Levels where
  deeper h := { h with nesting := congrArg (· + 1) h.nesting }
  shallower h := { h with nesting := congrArg (· - 1) h.nesting }

end Builder

end StackScript
