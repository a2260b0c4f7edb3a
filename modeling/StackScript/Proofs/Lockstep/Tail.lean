import StackScript.Proofs.Builder.Clean
import StackScript.Proofs.Builder.Writing
import StackScript.Proofs.Lockstep.Statement

/-!
Two texts that begin alike. Nothing looks further ahead than the next token, so up to the
end of what they share the two are compiled alike, and from there to the next token code is
written for the line of the last token that they share.
-/

namespace StackScript.Builder

/-- The tokens end with the only end marker, as those of a text do. -/
def Complete (tokens : List Token) : Prop :=
  ∃ front last, tokens = front ++ [last] ∧ last.kind = .endOfFile ∧
    ∀ t ∈ front, t.kind ≠ .endOfFile

theorem Complete.ne_nil {tokens : List Token} (h : Complete tokens) : tokens ≠ [] := by
  obtain ⟨front, last, rfl, -⟩ := h
  exact List.append_ne_nil_of_right_ne_nil front (List.cons_ne_nil last [])

theorem previous_report (b : Builder) (t : Token) (cause : Diagnostic.Cause) :
    (b.report t cause).previous = b.previous := by
  unfold report
  split <;> rfl

theorem upcoming_report (b : Builder) (t : Token) (cause : Diagnostic.Cause) :
    (b.report t cause).upcoming = b.upcoming := by
  unfold report
  split <;> rfl

/-- Faults are passed over, but not the end marker. -/
theorem Complete.load {unread : List Token} (h : Complete unread) (b : Builder) :
    (load unread b).Marked ∧ (load unread b).upcoming.length ≤ unread.length := by
  obtain ⟨front, last, rfl, hlast, hfront⟩ := h
  induction front generalizing b with
  | nil =>
      rw [List.nil_append, Builder.load, hlast]
      exact ⟨⟨[], last, rfl, hlast, hfront⟩, Nat.le_refl _⟩
  | cons t rest ih =>
      rw [List.cons_append, Builder.load]
      split
      · obtain ⟨hmarked, hlength⟩ := ih _ fun u hu => hfront u (List.mem_cons_of_mem t hu)
        exact ⟨hmarked, Nat.le_succ_of_le hlength⟩
      · exact ⟨⟨t :: rest, last, rfl, hlast, hfront⟩, Nat.le_refl _⟩

/-- Moving on uses up a token, and the end marker stays for ever. -/
theorem Marked.advance {b : Builder} (h : b.Marked) : b.advance.Marked ∧
    (b.advance.upcoming.length < b.upcoming.length ∨
      b.advance.upcoming.length = b.upcoming.length ∧ b.current.kind = .endOfFile) := by
  obtain ⟨front, last, hall, hlast, hfront⟩ := h
  cases front with
  | nil =>
      obtain ⟨hcurrent, hunread⟩ : b.current = last ∧ b.unread = [] := by
        simpa [Builder.upcoming] using hall
      have hstays : b.advance.upcoming = b.upcoming := by
        rw [Builder.advance, hunread, Builder.load, Builder.upcoming, Builder.upcoming, hunread]
      rw [Marked, hstays]
      exact ⟨⟨[], last, hall, hlast, hfront⟩, Or.inr ⟨rfl, hcurrent ▸ hlast⟩⟩
  | cons t rest =>
      have hunread : b.unread = rest ++ [last] := List.tail_eq_of_cons_eq hall
      have hcomplete : Complete b.unread :=
        ⟨rest, last, hunread, hlast, fun u hu => hfront u (List.mem_cons_of_mem t hu)⟩
      obtain ⟨hmarked, hlength⟩ := hcomplete.load { b with previous := b.current }
      exact ⟨hmarked, Or.inl (Nat.lt_succ_of_le hlength)⟩

/-- What is to come is at most `tail`. If it is all of `tail`, then what has been written
since the code had the lines `lines` belongs to `line`, unless the end marker has been read. -/
structure Beyond (tail : List Token) (lines : Array Nat) (line : Nat) (b : Builder) : Prop where
  marked : b.Marked
  length : b.upcoming.length ≤ tail.length
  wrote : b.upcoming.length < tail.length ∨ b.previous.kind = .endOfFile ∨
    b.previous.line = line ∧ ∃ k, b.chunk.lines = lines ++ Array.replicate k line

theorem persists_beyond (tail : List Token) (lines : Array Nat) (line : Nat) :
    Persists (Beyond tail lines line) where
  advance {b} h := by
    obtain ⟨hmarked, hshorter | ⟨hsame, hend⟩⟩ := h.marked.advance
    · exact ⟨hmarked, (Nat.le_of_lt hshorter).trans h.length, Or.inl (hshorter.trans_le h.length)⟩
    · refine ⟨hmarked, hsame.trans_le h.length, Or.inr (Or.inl ?_)⟩
      rwa [previous_advance]
  report {b} t cause h := by
    refine ⟨?_, ?_, ?_⟩
    · rw [Marked, upcoming_report]
      exact h.marked
    · rw [upcoming_report]
      exact h.length
    · rw [upcoming_report, previous_report, chunk_report]
      exact h.wrote
  recover h := ⟨h.marked, h.length, h.wrote⟩
  emitByte {b} byte h := by
    refine ⟨h.marked, h.length, h.wrote.imp_right (Or.imp_right ?_)⟩
    rintro ⟨hline, k, hlines⟩
    refine ⟨hline, k + 1, ?_⟩
    show b.chunk.lines.push b.previous.line = _
    rw [hlines, hline, Array.replicate_succ, Array.append_push]
  constants _ h := ⟨h.marked, h.length, h.wrote⟩
  code _ h := ⟨h.marked, h.length, h.wrote⟩
  locals _ h := ⟨h.marked, h.length, h.wrote⟩
  scopeDepth _ h := ⟨h.marked, h.length, h.wrote⟩
  nesting _ h := ⟨h.marked, h.length, h.wrote⟩

/-- Other tokens are to be read later. -/
def withUnread (b : Builder) (unread : List Token) : Builder := { b with unread }

/-- A step that does not look at what is to be read later. -/
def Blind (f : Builder → Builder) : Prop :=
  ∀ (b : Builder) (unread : List Token), f (b.withUnread unread) = (f b).withUnread unread

theorem Blind.unread {f : Builder → Builder} (hf : Blind f) (b : Builder) :
    (f b).unread = b.unread := by
  have hsame : f b = (f b).withUnread b.unread := hf b b.unread
  rw [hsame]
  rfl

theorem blind_report (t : Token) (cause : Diagnostic.Cause) : Blind fun b => b.report t cause := by
  intro b unread
  unfold report withUnread
  dsimp only
  split <;> rfl

theorem blind_errorAtPrevious (cause : Diagnostic.Cause) : Blind (errorAtPrevious · cause) :=
  fun b => blind_report b.previous cause b

theorem blind_errorAtCurrent (cause : Diagnostic.Cause) : Blind (errorAtCurrent · cause) :=
  fun b => blind_report b.current cause b

theorem blind_patchJump (offset : Nat) : Blind (patchJump · offset) := by
  intro b unread
  have hreport := blind_errorAtPrevious .jumpTooLarge b unread
  unfold patchJump
  simp only [hreport]
  unfold withUnread
  dsimp only
  split <;> rfl

theorem blind_addLocal (name : String) : Blind (addLocal · name) := by
  intro b unread
  have hreport := blind_errorAtPrevious .tooManyLocals b unread
  unfold addLocal
  simp only [hreport]
  unfold withUnread
  dsimp only
  split <;> rfl

theorem blind_markInitialized : Blind markInitialized := by
  intro b unread
  unfold markInitialized withUnread
  dsimp only
  split <;> rfl

theorem blind_dropLocals (entries : List Local) : Blind (dropLocals entries) := by
  intro b unread
  induction entries generalizing b with
  | nil => rfl
  | cons entry rest ih =>
      have hpop : (b.withUnread unread).emit .pop = (b.emit .pop).withUnread unread := rfl
      unfold dropLocals
      rw [hpop, ih (b.emit .pop)]
      unfold withUnread
      dsimp only
      split <;> rfl

theorem makeConstant_withUnread (b : Builder) (unread : List Token) (v : Value) :
    (b.withUnread unread).makeConstant v =
      ((b.makeConstant v).1.withUnread unread, (b.makeConstant v).2) := by
  have hchunk : (b.withUnread unread).chunk = b.chunk := rfl
  unfold makeConstant
  rw [hchunk]
  generalize b.chunk.addConstant v = added
  obtain ⟨chunk, index⟩ := added
  cases index with
  | some index => rfl
  | none =>
      dsimp only
      exact congrArg (·, 0) (blind_errorAtPrevious .tooManyConstants { b with chunk } unread)

/-- The two builders differ in what is to be read later, behind what they share. -/
def Shares (tail tail' : List Token) (b b' : Builder) : Prop :=
  ∃ front, b.unread = front ++ tail ∧ b' = b.withUnread (front ++ tail')

variable {tail tail' : List Token} {b b' : Builder}

theorem Shares.step {f : Builder → Builder} (hf : Blind f) (h : Shares tail tail' b b') :
    Shares tail tail' (f b) (f b') := by
  obtain ⟨front, hunread, rfl⟩ := h
  exact ⟨front, (hf.unread b).trans hunread, hf b _⟩

/-- Moving on may lead behind what is shared. -/
theorem shares_load (htail : Complete tail) (htail' : Complete tail') (front unread : List Token)
    (b : Builder) :
    Shares tail tail' (load (front ++ tail) b) (load (front ++ tail') (b.withUnread unread)) ∨
      ∃ e : Array Nat × Nat, Beyond tail e.1 e.2 (load (front ++ tail) b) ∧
        Beyond tail' e.1 e.2 (load (front ++ tail') (b.withUnread unread)) := by
  induction front generalizing b with
  | nil =>
      have hbeyond {tail : List Token} (htail : Complete tail) {c : Builder}
          (hprevious : c.previous = b.previous) (hchunk : c.chunk = b.chunk) :
          Beyond tail b.chunk.lines b.previous.line (load tail c) := by
        obtain ⟨hmarked, hlength⟩ := htail.load c
        refine ⟨hmarked, hlength, Or.inr (Or.inr ?_)⟩
        rw [previous_load, chunk_load, hprevious, hchunk]
        exact ⟨rfl, 0, by simp⟩
      exact Or.inr ⟨(b.chunk.lines, b.previous.line), hbeyond htail rfl rfl, hbeyond htail' rfl rfl⟩
  | cons t rest ih =>
      rw [List.cons_append, List.cons_append, load, load]
      split
      · rename_i reason _
        have hreport := blind_report t (.lexical reason) b unread
        dsimp only at hreport
        rw [hreport]
        exact ih _
      · exact Or.inl ⟨rest, rfl, rfl⟩

theorem Shares.advance (htail : Complete tail) (htail' : Complete tail')
    (h : Shares tail tail' b b') : Shares tail tail' b.advance b'.advance ∨
      ∃ e : Array Nat × Nat, Beyond tail e.1 e.2 b.advance ∧ Beyond tail' e.1 e.2 b'.advance := by
  obtain ⟨front, hunread, rfl⟩ := h
  have hload := shares_load htail htail' front (front ++ tail') { b with previous := b.current }
  rw [← hunread] at hload
  exact hload

/-- Two compilations of texts that begin alike, until one comes to the end of what they
share; then both do. -/
def alike (htail : Complete tail) (htail' : Complete tail') : Lockstep where
  loose := Shares tail tail'
  tight := Shares tail tail'
  operands := Eq
  shift := 0
  Exit := Array Nat × Nat
  left e := Beyond tail e.1 e.2
  right e := Beyond tail' e.1 e.2
  persists_left e := persists_beyond tail e.1 e.2
  persists_right e := persists_beyond tail' e.1 e.2
  loosen := id
  resembles := by
    rintro b _ ⟨front, -, rfl⟩
    exact ⟨rfl, rfl, rfl, rfl, rfl, rfl, rfl, rfl⟩
  unread := Or.inr fun h => by
    obtain ⟨front, hunread, rfl⟩ := h
    rw [hunread]
    exact ⟨List.append_ne_nil_of_right_ne_nil front htail.ne_nil,
      List.append_ne_nil_of_right_ne_nil front htail'.ne_nil⟩
  same_operand _ := rfl
  advance h := h.advance htail htail'
  errorAtCurrent cause _ h := h.step (blind_errorAtCurrent cause)
  errorAtPrevious cause _ h := h.step (blind_errorAtPrevious cause)
  recover h := h.step (f := fun b => { b with panicking := false }) fun _ _ => rfl
  emitByte {b b' byte byte'} h hbyte := by
    subst hbyte
    exact h.step (f := (emitByte · byte)) fun _ _ => rfl
  makeConstant v h := by
    obtain ⟨front, hunread, rfl⟩ := h
    rw [makeConstant_withUnread]
    refine Or.inl ⟨⟨front, ?_, rfl⟩, rfl⟩
    rw [← hunread]
    exact congrArg (fun r => r.1.unread) (makeConstant_withUnread _ _ v)
  patchJump offset h := h.step (blind_patchJump offset)
  addLocal name _ h := h.step (blind_addLocal name)
  markInitialized _ h := h.step blind_markInitialized
  beginScope h := h.step (f := beginScope) fun _ _ => rfl
  endScope {b b'} h := by
    obtain ⟨front, hunread, rfl⟩ := h
    have hdrop := blind_dropLocals b.locals
    refine Shares.step (f := fun c => dropLocals b.locals { c with scopeDepth := c.scopeDepth - 1 })
      (fun c unread => hdrop { c with scopeDepth := c.scopeDepth - 1 } unread) ⟨front, hunread, rfl⟩

theorem levels_alike (htail : Complete tail) (htail' : Complete tail') :
    (alike htail htail').Levels where
  deeper h := Shares.step (f := fun b => { b with nesting := b.nesting + 1 }) (fun _ _ => rfl) h
  shallower h := Shares.step (f := fun b => { b with nesting := b.nesting - 1 }) (fun _ _ => rfl) h

end StackScript.Builder
