import StackScript.Proofs.Builder.Clean
import StackScript.Proofs.Token.Spelling

/-!
Reading without a mistake. From a clean builder on, a step that leaves no diagnostic has
either taken in tokens or only written and declared something; what it has taken in is
the difference between the tokens upcoming before and after it.
-/

namespace StackScript.Builder

/-- The tokens that are still to come are those of a scanned text. -/
structure Legible (b : Builder) : Prop where
  marked : b.Marked
  spelled : ∀ t ∈ b.upcoming, t.WellSpelled

/-- The tokens `ts` have been taken in without a mistake. -/
structure Took (b : Builder) (ts : List Token) (b' : Builder) : Prop where
  clean : b'.Clean
  upcoming : b.upcoming = ts ++ b'.upcoming
  previous : b'.previous = ts.getLastD b.previous
  nesting : b'.nesting = b.nesting

theorem Took.legible {b b' : Builder} {ts : List Token} (h : b.Took ts b') (hb : b.Legible) :
    b'.Legible := by
  refine ⟨hb.marked.of_upcoming h.upcoming, fun t ht => hb.spelled t ?_⟩
  rw [h.upcoming]
  exact List.mem_append_right ts ht

theorem Took.nil {b : Builder} (h : b.Clean) : b.Took [] b :=
  ⟨h, rfl, rfl, rfl⟩

theorem Took.trans {b₁ b₂ b₃ : Builder} {ts us : List Token} (h₁ : b₁.Took ts b₂)
    (h₂ : b₂.Took us b₃) : b₁.Took (ts ++ us) b₃ where
  clean := h₂.clean
  upcoming := by rw [h₁.upcoming, h₂.upcoming, List.append_assoc]
  previous := by
    rw [h₂.previous, h₁.previous]
    simp only [List.getLastD_eq_getLast?, List.getLast?_append]
    cases us.getLast? <;> rfl
  nesting := h₂.nesting.trans h₁.nesting

/-- What has been taken in is at least as many unread tokens. -/
theorem Took.length_unread {b b' : Builder} {ts : List Token} (h : b.Took ts b') :
    b.unread.length = ts.length + b'.unread.length := by
  have hlength := congrArg List.length h.upcoming
  simp only [Builder.upcoming, List.length_cons, List.length_append] at hlength
  omega

/-- A step that reads no token: from a clean builder on it leaves a diagnostic or only
writes and declares. -/
structure Stationary (b b' : Builder) : Prop where
  keeps : b.Soiled → b'.Soiled
  took : b.Clean → ¬ b'.Soiled → b.Took [] b'

namespace Stationary

theorem trans {b₁ b₂ b₃ : Builder} (h₁ : b₁.Stationary b₂) (h₂ : b₂.Stationary b₃) :
    b₁.Stationary b₃ where
  keeps h := h₂.keeps (h₁.keeps h)
  took hclean hsoiled := by
    have hfirst := h₁.took hclean (mt h₂.keeps hsoiled)
    exact hfirst.trans (h₂.took hfirst.clean hsoiled)

/-- Code, locals and the depth of scopes have no part in reading. -/
theorem of_eq {b b' : Builder} (hupcoming : b'.upcoming = b.upcoming)
    (hprevious : b'.previous = b.previous) (hcalm : b'.panicking = b.panicking)
    (herrors : b'.errors = b.errors) (hnesting : b'.nesting = b.nesting) : b.Stationary b' where
  keeps h := by rwa [Soiled, herrors]
  took hclean _ :=
    ⟨⟨herrors.trans hclean.errors, hcalm.trans hclean.calm⟩, hupcoming.symm, hprevious, hnesting⟩

theorem report (b : Builder) (t : Token) (cause : Diagnostic.Cause) :
    b.Stationary (b.report t cause) where
  keeps h := h.report t cause
  took hclean hsoiled := absurd (hclean.soiled_report t cause) hsoiled

theorem refl (b : Builder) : b.Stationary b := of_eq rfl rfl rfl rfl rfl

theorem errorAtPrevious (b : Builder) (cause : Diagnostic.Cause) :
    b.Stationary (b.errorAtPrevious cause) :=
  report b b.previous cause

theorem emit (b : Builder) (op : Opcode) : b.Stationary (b.emit op) := of_eq rfl rfl rfl rfl rfl

theorem emitWithByte (b : Builder) (op : Opcode) (byte : UInt8) :
    b.Stationary (b.emitWithByte op byte) :=
  of_eq rfl rfl rfl rfl rfl

theorem emitWord (b : Builder) (word : Nat) : b.Stationary (b.emitWord word) :=
  of_eq rfl rfl rfl rfl rfl

theorem emitJump (b : Builder) (op : Opcode) : b.Stationary (b.emitJump op).1 :=
  of_eq rfl rfl rfl rfl rfl

theorem makeConstant (b : Builder) (v : Value) : b.Stationary (b.makeConstant v).1 := by
  unfold Builder.makeConstant
  split
  · exact of_eq rfl rfl rfl rfl rfl
  · rename_i chunk _
    have hchunk : b.Stationary { b with chunk } := of_eq rfl rfl rfl rfl rfl
    exact hchunk.trans (errorAtPrevious _ _)

theorem emitConstant (b : Builder) (v : Value) : b.Stationary (b.emitConstant v) :=
  (makeConstant b v).trans (emitWithByte _ _ _)

theorem patchJump (b : Builder) (offset : Nat) : b.Stationary (b.patchJump offset) := by
  unfold Builder.patchJump
  dsimp only
  split
  · exact of_eq rfl rfl rfl rfl rfl
  · exact errorAtPrevious b _

theorem emitLoop (b : Builder) (start : Nat) : b.Stationary (b.emitLoop start) := by
  unfold Builder.emitLoop
  dsimp only
  split
  · exact of_eq rfl rfl rfl rfl rfl
  · exact (emit b .loop).trans ((errorAtPrevious _ _).trans (emitWord _ _))

theorem beginScope (b : Builder) : b.Stationary b.beginScope := of_eq rfl rfl rfl rfl rfl

theorem dropLocals (entries : List Local) (b : Builder) : b.Stationary (dropLocals entries b) := by
  induction entries generalizing b with
  | nil => exact of_eq rfl rfl rfl rfl rfl
  | cons entry rest ih =>
      unfold Builder.dropLocals
      split
      · exact (emit b .pop).trans (ih (b.emit .pop))
      · exact of_eq rfl rfl rfl rfl rfl

theorem endScope (b : Builder) : b.Stationary b.endScope := by
  have hdepth : b.Stationary { b with scopeDepth := b.scopeDepth - 1 } := of_eq rfl rfl rfl rfl rfl
  exact hdepth.trans (dropLocals _ _)

theorem resolveLocal (b : Builder) (name : String) : b.Stationary (b.resolveLocal name).1 := by
  unfold Builder.resolveLocal
  split
  · exact refl b
  · dsimp only
    split
    · exact errorAtPrevious b _
    · exact refl b

theorem accessTo (b : Builder) (name : String) : b.Stationary (b.accessTo name).1 := by
  have hresolve := resolveLocal b name
  unfold Builder.accessTo
  generalize b.resolveLocal name = found at hresolve ⊢
  obtain ⟨b', slot⟩ := found
  cases slot with
  | some slot => exact hresolve
  | none => exact hresolve.trans (makeConstant _ _)

theorem addLocal (b : Builder) (name : String) : b.Stationary (b.addLocal name) := by
  unfold Builder.addLocal
  split
  · exact errorAtPrevious b _
  · exact of_eq rfl rfl rfl rfl rfl

theorem declareVariable (b : Builder) : b.Stationary b.declareVariable := by
  unfold Builder.declareVariable
  split
  · exact refl b
  · dsimp only
    split
    · exact (errorAtPrevious b _).trans (addLocal _ _)
    · exact addLocal b _

theorem defineVariable (b : Builder) (name : UInt8) : b.Stationary (b.defineVariable name) := by
  unfold Builder.defineVariable
  split
  · unfold markInitialized
    split
    · exact refl b
    · exact of_eq rfl rfl rfl rfl rfl
  · exact emitWithByte b _ _

theorem otherwise (thenJump : Nat) (b : Builder) : b.Stationary (b.otherwise thenJump).1 :=
  (emitJump b _).trans ((patchJump _ _).trans (emit _ _))

theorem forExit (exitJump : Option Nat) (b : Builder) : b.Stationary (b.forExit exitJump) := by
  cases exitJump with
  | none => exact refl b
  | some jump => exact (patchJump b jump).trans (emit _ _)

/-- A stationary step at the end of some reading. -/
theorem after {b₁ b₂ b₃ : Builder} {ts : List Token} (h : b₂.Stationary b₃) (htook : b₁.Took ts b₂)
    (hsoiled : ¬ b₃.Soiled) : b₁.Took ts b₃ ∧ b₃.current = b₂.current := by
  have hafter := h.took htook.clean hsoiled
  have hcurrent := List.head_eq_of_cons_eq hafter.upcoming
  exact ⟨by simpa using htook.trans hafter, hcurrent.symm⟩

theorem foldl_emit (ops : List Opcode) (b : Builder) : b.Stationary (ops.foldl Builder.emit b) := by
  induction ops generalizing b with
  | nil => exact refl b
  | cons op rest ih => exact (emit b op).trans (ih (b.emit op))

end Stationary

/-- Moving on takes in the current token, or leaves a diagnostic for the next. -/
theorem took_advance {b : Builder} (hclean : b.Clean) (hlegible : b.Legible)
    (hmore : b.current.kind ≠ .endOfFile) (hsoiled : ¬ b.advance.Soiled) :
    b.Took [b.current] b.advance ∧ b.advance.previous = b.current := by
  cases hunread : b.unread with
  | nil => exact absurd (hlegible.marked.unread_eq_nil_iff.mp hunread) hmore
  | cons t rest =>
      by_cases ht : t.Sound
      · rw [advance_of_sound hunread ht]
        exact ⟨⟨⟨hclean.errors, hclean.calm⟩, by simp [Builder.upcoming, moved, hunread], rfl, rfl⟩,
          rfl⟩
      · exact absurd (advance_of_fault hclean hunread ht) hsoiled

/-- A token that has to be there is there. -/
theorem took_expect {b : Builder} {kind : TokenKind} {what : Expectation} (hclean : b.Clean)
    (hlegible : b.Legible) (hkind : kind ≠ .endOfFile) (hsoiled : ¬ (b.expect kind what).Soiled) :
    b.current.kind = kind ∧ b.Took [b.current] (b.expect kind what) := by
  cases hsees : b.sees kind with
  | false => exact absurd (expect_of_not_sees hclean hsees) hsoiled
  | true =>
      have hcurrent : b.current.kind = kind := of_decide_eq_true hsees
      rw [expect_of_sees hsees] at hsoiled ⊢
      exact ⟨hcurrent, (took_advance hclean hlegible (hcurrent ▸ hkind) hsoiled).1⟩

/-- What is asked of some tokens and of the one that follows them. -/
abbrev Phrase := List Token → Token → Prop

/-- One phrase and then another. -/
def Phrase.followed (P Q : Phrase) : Phrase := fun ts next =>
  ∃ us vs middle, ts = us ++ vs ∧ P us middle ∧ Q vs next

/-- The phrase of one token. -/
def tokenPhrase (kind : TokenKind) : Phrase := fun ts _ => ∃ t : Token, ts = [t] ∧ t.kind = kind

/-- From `b` to `b'` a phrase has been read on the given level, or there is a diagnostic. -/
structure Reads (level : Nat) (b : Builder) (P : Phrase) (b' : Builder) : Prop where
  keeps : b.Soiled → b'.Soiled
  took : b.Clean → b.Legible → b.nesting = level → ¬ b'.Soiled →
    ∃ ts, P ts b'.current ∧ b.Took ts b'

namespace Reads

variable {level : Nat} {b b₁ b₂ b₃ : Builder} {P Q : Phrase}

theorem mono (h : b₁.Reads level P b₂) (hle : ∀ ts next, P ts next → Q ts next) :
    b₁.Reads level Q b₂ where
  keeps := h.keeps
  took hclean hlegible hlevel hsoiled := by
    obtain ⟨ts, hphrase, htook⟩ := h.took hclean hlegible hlevel hsoiled
    exact ⟨ts, hle _ _ hphrase, htook⟩

theorem followed (h₁ : b₁.Reads level P b₂) (h₂ : b₂.Reads level Q b₃) :
    b₁.Reads level (P.followed Q) b₃ where
  keeps h := h₂.keeps (h₁.keeps h)
  took hclean hlegible hlevel hsoiled := by
    obtain ⟨us, hus, htook₁⟩ := h₁.took hclean hlegible hlevel (mt h₂.keeps hsoiled)
    obtain ⟨vs, hvs, htook₂⟩ := h₂.took htook₁.clean (htook₁.legible hlegible)
      (htook₁.nesting.trans hlevel) hsoiled
    exact ⟨us ++ vs, ⟨us, vs, b₂.current, rfl, hus, hvs⟩, htook₁.trans htook₂⟩

/-- A stationary step behind a phrase. -/
theorem stay (h₁ : b₁.Reads level P b₂) (h₂ : b₂.Stationary b₃) : b₁.Reads level P b₃ where
  keeps h := h₂.keeps (h₁.keeps h)
  took hclean hlegible hlevel hsoiled := by
    obtain ⟨ts, hphrase, htook⟩ := h₁.took hclean hlegible hlevel (mt h₂.keeps hsoiled)
    obtain ⟨hafter, hcurrent⟩ := h₂.after htook hsoiled
    exact ⟨ts, hcurrent ▸ hphrase, hafter⟩

/-- A stationary step before a phrase. -/
theorem afterStay (h₁ : b₁.Stationary b₂) (h₂ : b₂.Reads level P b₃) : b₁.Reads level P b₃ where
  keeps h := h₂.keeps (h₁.keeps h)
  took hclean hlegible hlevel hsoiled := by
    have hbegun := h₁.took hclean (mt h₂.keeps hsoiled)
    obtain ⟨ts, hphrase, htook⟩ := h₂.took hbegun.clean (hbegun.legible hlegible)
      (hbegun.nesting.trans hlevel) hsoiled
    exact ⟨ts, hphrase, hbegun.trans htook⟩

/-- The token behind a phrase is the current one. -/
theorem atCurrent (h : b₁.Reads level P b₂) :
    b₁.Reads level (fun ts next => P ts next ∧ next = b₂.current) b₂ where
  keeps := h.keeps
  took hclean hlegible hlevel hsoiled := by
    obtain ⟨ts, hphrase, htook⟩ := h.took hclean hlegible hlevel hsoiled
    exact ⟨ts, ⟨hphrase, rfl⟩, htook⟩

/-- Nothing can follow a diagnostic. -/
theorem never (h : b₁.Soiled → b₂.Soiled) (hsoils : b₁.Clean → b₂.Soiled) :
    b₁.Reads level P b₂ where
  keeps := h
  took hclean _ _ hsoiled := absurd (hsoils hclean) hsoiled

theorem advance (level : Nat) {kind : TokenKind} (hcurrent : b.current.kind = kind)
    (hkind : kind ≠ .endOfFile) : b.Reads level (tokenPhrase kind) b.advance where
  keeps := closed_soiled.advance b
  took hclean hlegible _ hsoiled :=
    ⟨_, ⟨b.current, rfl, hcurrent⟩,
      (took_advance hclean hlegible (hcurrent ▸ hkind) hsoiled).1⟩

theorem expect (level : Nat) (b : Builder) (kind : TokenKind) (what : Expectation)
    (hkind : kind ≠ .endOfFile) : b.Reads level (tokenPhrase kind) (b.expect kind what) where
  keeps := closed_soiled.expect b kind what
  took hclean hlegible _ hsoiled := by
    obtain ⟨hcurrent, htook⟩ := took_expect hclean hlegible hkind hsoiled
    exact ⟨_, ⟨b.current, rfl, hcurrent⟩, htook⟩

end Reads

end StackScript.Builder
