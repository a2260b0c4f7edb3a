import Mathlib.Data.List.Forall2
import StackScript.Proofs.Compiler.Program
import StackScript.Proofs.Lockstep.Upkeep
import StackScript.Proofs.Token.Lines
import StackScript.Proofs.Token.Spelling

/-!
Where diagnostics point. Some are found at the token to come, some at the token read last
and some at text that is no token, and leaving a panic moves nothing. All the same each
one points at the token that the one before it points at, or at a later one.
-/

namespace StackScript

/-- The diagnostic is about this token: it has the token's line and place, and it repeats
what the scanner found wrong exactly where the token is no token of the language. -/
structure Diagnostic.PointsAt (d : Diagnostic) (t : Token) : Prop where
  line : d.line = t.line
  location : d.location = match t.kind with
    | .endOfFile => .atEnd
    | .fault _ => .nowhere
    | _ => .atToken t.lexeme
  lexical : ∀ reason, d.cause = .lexical reason ↔ t.kind = .fault reason

theorem Token.Sound.pointsAt {t : Token} (ht : t.Sound) {cause : Diagnostic.Cause}
    (hcause : cause.Grammatical) : (⟨cause, t.line, t.location⟩ : Diagnostic).PointsAt t :=
  ⟨rfl, rfl, fun reason => iff_of_false (hcause reason) (ht reason)⟩

theorem Token.fault_pointsAt {t : Token} {reason : LexicalFault} (ht : t.kind = .fault reason) :
    (⟨.lexical reason, t.line, t.location⟩ : Diagnostic).PointsAt t :=
  ⟨rfl, rfl, fun other => by simp [ht]⟩

/-- The diagnostics point at the tokens with these indices, in order. -/
structure Diagnostic.Marks (tokens : List Token) (errors : Array Diagnostic) (marks : List Nat) :
    Prop where
  points : List.Forall₂ (fun d i => ∃ t, tokens[i]? = some t ∧ d.PointsAt t) errors.toList marks
  ordered : marks.Pairwise (· ≤ ·)

namespace Diagnostic

theorem PointsAt.nowhere_iff {d : Diagnostic} {t : Token} (h : d.PointsAt t) :
    d.location = .nowhere ↔ ∃ reason, d.cause = .lexical reason := by
  simp only [h.lexical, h.location]
  split <;> simp_all

variable {tokens : List Token} {errors : Array Diagnostic} {marks : List Nat}

theorem Marks.push (h : Marks tokens errors marks) {d : Diagnostic} {t : Token} {i : Nat}
    (ht : tokens[i]? = some t) (hpoints : d.PointsAt t) (hreached : ∀ m ∈ marks, m ≤ i) :
    Marks tokens (errors.push d) (marks ++ [i]) where
  points := by
    rw [Array.toList_push]
    exact List.rel_append h.points (.cons ⟨t, ht, hpoints⟩ .nil)
  ordered := by
    refine List.pairwise_append.mpr ⟨h.ordered, List.pairwise_singleton _ _, fun m hm n hn => ?_⟩
    rw [List.mem_singleton.mp hn]
    exact hreached m hm

/-- A diagnostic among those that point at some tokens points at one of them. -/
theorem exists_mark {R : Diagnostic → Nat → Prop} {ds : List Diagnostic}
    (h : List.Forall₂ R ds marks) {d : Diagnostic} (hd : d ∈ ds) : ∃ m ∈ marks, R d m := by
  induction h with
  | nil => cases hd
  | cons hpoints _ ih =>
      obtain rfl | hd := List.mem_cons.mp hd
      · exact ⟨_, List.mem_cons_self .., hpoints⟩
      · obtain ⟨m, hm, hpoints⟩ := ih hd
        exact ⟨m, List.mem_cons_of_mem _ hm, hpoints⟩

theorem Marks.nowhere_iff (h : Marks tokens errors marks) {d : Diagnostic} (hd : d ∈ errors) :
    d.location = .nowhere ↔ ∃ reason, d.cause = .lexical reason := by
  obtain ⟨m, -, t, -, hpoints⟩ := exists_mark h.points (Array.mem_toList_iff.mpr hd)
  exact hpoints.nowhere_iff

/-- Where the lines of the tokens never decrease, those of the diagnostics do not either. -/
theorem Marks.lines (h : Marks tokens errors marks)
    (htokens : tokens.Pairwise fun t u => t.line ≤ u.line) :
    errors.toList.Pairwise fun d e => d.line ≤ e.line := by
  obtain ⟨hpoints, hordered⟩ := h
  generalize errors.toList = ds at hpoints
  induction hpoints with
  | nil => exact .nil
  | @cons d m ds marks hd hrest ih =>
      obtain ⟨hm, hordered⟩ := List.pairwise_cons.mp hordered
      refine List.pairwise_cons.mpr ⟨fun e he => ?_, ih hordered⟩
      obtain ⟨n, hn, u, hu, heu⟩ := exists_mark hrest he
      obtain ⟨t, ht, hdt⟩ := hd
      rw [hdt.line, heu.line]
      obtain ⟨hmlt, rfl⟩ := List.getElem?_eq_some_iff.mp ht
      obtain ⟨hnlt, rfl⟩ := List.getElem?_eq_some_iff.mp hu
      obtain hlt | rfl := Nat.lt_or_eq_of_le (hm n hn)
      · exact List.pairwise_iff_getElem.mp htokens m n hmlt hnlt hlt
      · exact Nat.le_refl _

end Diagnostic

namespace Builder

open Diagnostic

/-- The current token is the one with index `here`, and no diagnostic points behind it. -/
structure Stands (tokens : List Token) (b : Builder) (marks : List Nat) (here : Nat) : Prop where
  current : tokens[here]? = some b.current
  unread : b.unread = tokens.drop (here + 1)
  sound : b.current.Sound
  points : Marks tokens b.errors marks
  reached : ∀ m ∈ marks, m ≤ here

/-- No diagnostic points behind the token read last. -/
def Passed (tokens : List Token) (b : Builder) (marks : List Nat) (here : Nat) : Prop :=
  ∃ i ≤ here, tokens[i]? = some b.previous ∧ b.previous.Sound ∧ ∀ m ∈ marks, m ≤ i

def InOrder (tokens : List Token) (b : Builder) : Prop :=
  ∃ marks here, Stands tokens b marks here

/-- The next diagnostic may be one about the token read last. -/
def InOrderBehind (tokens : List Token) (b : Builder) : Prop :=
  ∃ marks here, Stands tokens b marks here ∧ (b.panicking = true ∨ Passed tokens b marks here)

section Steps

variable {tokens : List Token} {b : Builder} {marks : List Nat}

theorem panicking_report (b : Builder) (t : Token) (cause : Diagnostic.Cause) :
    (b.report t cause).panicking = true := by
  unfold report
  split
  · assumption
  · rfl

theorem panicking_load {b : Builder} (h : b.panicking = true) (unread : List Token) :
    (load unread b).panicking = true := by
  induction unread generalizing b with
  | nil => exact h
  | cons t rest ih =>
      unfold load
      split
      · exact ih (panicking_report b t _)
      · exact h

theorem load_sound {t : Token} (ht : t.Sound) (rest : List Token) (b : Builder) :
    load (t :: rest) b = { b with current := t, unread := rest } := by
  unfold load
  split
  · rename_i reason hkind
    exact absurd hkind (ht reason)
  · rfl

/-- The faults among the tokens to come are later than all diagnostics so far. -/
theorem load_marks {front : List Token} {last : Token} {next : Nat}
    (h : Marks tokens b.errors marks) (hreached : ∀ m ∈ marks, m < next)
    (hdrop : tokens.drop next = front ++ [last]) (hlast : last.Sound) :
    ∃ marks' here, next ≤ here ∧ Stands tokens (load (front ++ [last]) b) marks' here ∧
      ((load (front ++ [last]) b).panicking = true ∨ marks' = marks) := by
  induction front generalizing b marks next with
  | nil =>
      have hcurrent : tokens[next]? = some last := by
        have := congrArg (·[0]?) hdrop
        simpa using this
      have hbehind : tokens.drop (next + 1) = [] := by
        rw [← List.tail_drop, hdrop]
        rfl
      rw [List.nil_append, load_sound hlast]
      exact ⟨marks, next, Nat.le_refl next, ⟨hcurrent, hbehind.symm, hlast, h,
        fun m hm => Nat.le_of_lt (hreached m hm)⟩, Or.inr rfl⟩
  | cons t rest ih =>
      have hhere : tokens[next]? = some t := by
        have := congrArg (·[0]?) hdrop
        simpa using this
      have hbehind : tokens.drop (next + 1) = rest ++ [last] := by
        rw [← List.tail_drop, hdrop]
        rfl
      by_cases ht : t.Sound
      · rw [List.cons_append, load_sound ht]
        exact ⟨marks, next, Nat.le_refl next, ⟨hhere, hbehind.symm, ht, h,
          fun m hm => Nat.le_of_lt (hreached m hm)⟩, Or.inr rfl⟩
      · obtain ⟨reason, hreason⟩ : ∃ reason, t.kind = .fault reason := by
          simpa [Token.Sound] using ht
        have hload : load (t :: rest ++ [last]) b =
            load (rest ++ [last]) (b.report t (.lexical reason)) := by
          rw [List.cons_append, Builder.load, hreason]
        rw [hload]
        have hpanic := panicking_load (panicking_report b t (.lexical reason)) (rest ++ [last])
        obtain ⟨marks₁, hpoints, hnext⟩ : ∃ marks₁,
            Marks tokens (b.report t (.lexical reason)).errors marks₁ ∧
              ∀ m ∈ marks₁, m < next + 1 := by
          unfold report
          split
          · exact ⟨marks, h, fun m hm => Nat.lt_succ_of_lt (hreached m hm)⟩
          · refine ⟨marks ++ [next], h.push hhere (Token.fault_pointsAt hreason)
              fun m hm => Nat.le_of_lt (hreached m hm), fun m hm => ?_⟩
            obtain hm | hm := List.mem_append.mp hm
            · exact Nat.lt_succ_of_lt (hreached m hm)
            · rw [List.mem_singleton.mp hm]
              exact Nat.lt_succ_self next
        obtain ⟨marks', here, hle, hstands, -⟩ := ih hpoints hnext hbehind
        exact ⟨marks', here, Nat.le_of_succ_le hle, hstands, Or.inl hpanic⟩

/-- Tokens that end with one of the language, as those of a scanned text do. -/
def Ended (tokens : List Token) : Prop :=
  ∃ front last, tokens = front ++ [last] ∧ last.Sound

theorem InOrder.advance (hended : Ended tokens) (h : InOrder tokens b) :
    InOrderBehind tokens b.advance := by
  obtain ⟨front, last, rfl, hlast⟩ := hended
  obtain ⟨marks, here, hstands⟩ := h
  have hunread := hstands.unread
  have hlt : here < (front ++ [last]).length := by
    by_contra hout
    have := hstands.current
    rw [List.getElem?_eq_none (Nat.le_of_not_lt hout)] at this
    cases this
  rw [List.length_append, List.length_singleton] at hlt
  have hadvance {unread : List Token} (h : b.unread = unread) :
      b.advance = load unread { b with previous := b.current } :=
    congrArg (load · { b with previous := b.current }) h
  obtain hhere | hhere := Nat.lt_succ_iff_lt_or_eq.mp hlt
  · have hdrop : (front ++ [last]).drop (here + 1) = front.drop (here + 1) ++ [last] :=
      List.drop_append_of_le_length hhere
    rw [hadvance (hunread.trans hdrop)]
    obtain ⟨marks', here', hle, hstands', hmarks⟩ :=
      load_marks (b := { b with previous := b.current }) hstands.points
        (fun m hm => Nat.lt_succ_of_le (hstands.reached m hm)) hdrop hlast
    refine ⟨marks', here', hstands', hmarks.imp_right fun hsame => ?_⟩
    rw [Passed, previous_load, hsame]
    exact ⟨here, Nat.le_of_succ_le hle, hstands.current, hstands.sound, hstands.reached⟩
  · have hempty : (front ++ [last]).drop (here + 1) = [] :=
      List.drop_eq_nil_of_le (by simp [hhere])
    rw [hadvance (hunread.trans hempty)]
    exact ⟨marks, here, ⟨hstands.current, hempty.symm, hstands.sound, hstands.points,
      hstands.reached⟩, Or.inr ⟨here, Nat.le_refl here, hstands.current, hstands.sound,
        hstands.reached⟩⟩

theorem InOrder.errorAtCurrent {cause : Diagnostic.Cause} (hcause : cause.Grammatical)
    (h : InOrder tokens b) : InOrderBehind tokens (b.errorAtCurrent cause) := by
  obtain ⟨marks, here, hstands⟩ := h
  have hpanic := panicking_report b b.current cause
  unfold Builder.errorAtCurrent at *
  unfold report at hpanic ⊢
  split
  · exact ⟨marks, here, hstands, Or.inl ‹_›⟩
  · refine ⟨marks ++ [here], here, ⟨hstands.current, hstands.unread, hstands.sound,
      hstands.points.push hstands.current (hstands.sound.pointsAt hcause) hstands.reached, ?_⟩,
      Or.inl rfl⟩
    simpa [or_imp, forall_and] using hstands.reached

theorem InOrderBehind.errorAtPrevious {cause : Diagnostic.Cause} (hcause : cause.Grammatical)
    (h : InOrderBehind tokens b) : InOrderBehind tokens (b.errorAtPrevious cause) := by
  obtain ⟨marks, here, hstands, hpassed⟩ := h
  unfold Builder.errorAtPrevious report
  split
  · exact ⟨marks, here, hstands, Or.inl ‹_›⟩
  · rename_i hcalm
    obtain ⟨i, hi, hprevious, hsound, hbehind⟩ := hpassed.resolve_left hcalm
    refine ⟨marks ++ [i], here, ⟨hstands.current, hstands.unread, hstands.sound,
      hstands.points.push hprevious (hsound.pointsAt hcause) hbehind, fun m hm => ?_⟩, Or.inl rfl⟩
    obtain hm | hm := List.mem_append.mp hm
    · exact hstands.reached m hm
    · rw [List.mem_singleton.mp hm]
      exact hi

/-- Nothing that is told by diagnostics or tells about them differs. -/
structure ReadsAs (b b' : Builder) : Prop where
  current : b'.current = b.current
  unread : b'.unread = b.unread
  previous : b'.previous = b.previous
  panicking : b'.panicking = b.panicking
  errors : b'.errors = b.errors

theorem InOrderBehind.of_readsAs {b' : Builder} (h : InOrderBehind tokens b)
    (hsame : b.ReadsAs b') : InOrderBehind tokens b' := by
  obtain ⟨marks, here, hstands, hpassed⟩ := h
  refine ⟨marks, here, ⟨hsame.current ▸ hstands.current, hsame.unread ▸ hstands.unread,
    hsame.current ▸ hstands.sound, hsame.errors ▸ hstands.points, hstands.reached⟩, ?_⟩
  rwa [Passed, hsame.panicking, hsame.previous]

theorem readsAs_dropLocals (entries : List Local) (b : Builder) :
    b.ReadsAs (dropLocals entries b) := by
  induction entries generalizing b with
  | nil => exact ⟨rfl, rfl, rfl, rfl, rfl⟩
  | cons entry rest ih =>
      unfold dropLocals
      split
      · obtain ⟨hcurrent, hunread, hprevious, hpanicking, herrors⟩ := ih (b.emit .pop)
        exact ⟨hcurrent, hunread, hprevious, hpanicking, herrors⟩
      · exact ⟨rfl, rfl, rfl, rfl, rfl⟩

end Steps

/-- Every step leaves the diagnostics in the order of their tokens. -/
def inOrder {tokens : List Token} (hended : Ended tokens) : Upkeep where
  loose := InOrder tokens
  tight := InOrderBehind tokens
  loosen := fun ⟨marks, here, hstands, _⟩ => ⟨marks, here, hstands⟩
  advance h := h.advance hended
  errorAtCurrent _ hcause h := h.errorAtCurrent hcause
  errorAtPrevious _ hcause h := h.errorAtPrevious hcause
  recover := fun ⟨marks, here, hstands, _⟩ => ⟨marks, here,
    ⟨hstands.current, hstands.unread, hstands.sound, hstands.points, hstands.reached⟩⟩
  emitByte _ h := h.of_readsAs ⟨rfl, rfl, rfl, rfl, rfl⟩
  makeConstant {b} v h := by
    unfold makeConstant
    split
    · exact h.of_readsAs ⟨rfl, rfl, rfl, rfl, rfl⟩
    · rename_i chunk _
      have hchunk : InOrderBehind tokens { b with chunk } := h.of_readsAs ⟨rfl, rfl, rfl, rfl, rfl⟩
      exact hchunk.errorAtPrevious nofun
  patchJump offset h := by
    unfold patchJump
    dsimp only
    split
    · exact h.of_readsAs ⟨rfl, rfl, rfl, rfl, rfl⟩
    · exact h.errorAtPrevious nofun
  addLocal name _ h := by
    unfold addLocal
    split
    · exact h.errorAtPrevious nofun
    · exact h.of_readsAs ⟨rfl, rfl, rfl, rfl, rfl⟩
  markInitialized _ h := by
    unfold markInitialized
    split
    · exact h
    · exact h.of_readsAs ⟨rfl, rfl, rfl, rfl, rfl⟩
  beginScope h := h.of_readsAs ⟨rfl, rfl, rfl, rfl, rfl⟩
  endScope {b} h := by
    have hdepth : InOrderBehind tokens { b with scopeDepth := b.scopeDepth - 1 } :=
      h.of_readsAs ⟨rfl, rfl, rfl, rfl, rfl⟩
    exact hdepth.of_readsAs (readsAs_dropLocals _ _)
  deeper := fun ⟨marks, here, hstands⟩ => ⟨marks, here,
    ⟨hstands.current, hstands.unread, hstands.sound, hstands.points, hstands.reached⟩⟩
  shallower h := h.of_readsAs ⟨rfl, rfl, rfl, rfl, rfl⟩

end Builder

theorem Token.ended_scan (source : String) : Builder.Ended (Token.scan source) := by
  obtain ⟨front, last, hscan, hlast, -⟩ := Token.scan_eq source
  refine ⟨front, last, hscan, fun reason => ?_⟩
  rw [hlast]
  nofun

namespace Builder

theorem inOrder_start (source : String) :
    InOrder (Token.scan source) ({ unread := Token.scan source } : Builder).advance := by
  obtain ⟨front, last, hscan, hlast⟩ := Token.ended_scan source
  have hnone :
      Diagnostic.Marks (Token.scan source) ({ unread := Token.scan source } : Builder).errors
      [] := ⟨.nil, .nil⟩
  have hdrop : (Token.scan source).drop 0 = front ++ [last] := hscan
  obtain ⟨marks, here, -, hstands, -⟩ := load_marks hnone (by simp) hdrop hlast
  rw [← hscan] at hstands
  exact ⟨marks, here, hstands⟩

theorem marks_program (source : String) : ∃ marks,
    Diagnostic.Marks (Token.scan source) (program (Token.scan source)).errors marks := by
  obtain ⟨marks, here, hstands, -⟩ :=
    (inOrder (Token.ended_scan source)).program (inOrder_start source)
  exact ⟨marks, hstands.points⟩

end Builder

/-- A text that is not compiled has diagnostics, each about a token of the text, and in the
order of these tokens: a diagnostic has the line and place of its token, those without a
place are what the scanner found, and lines never decrease. -/
theorem diagnostics_follow_tokens {source : String} {errors : Array Diagnostic}
    (h : compile source = .error errors) :
    errors ≠ #[] ∧ (∃ marks, Diagnostic.Marks (Token.scan source) errors marks) ∧
      (∀ d ∈ errors, d.location = .nowhere ↔ ∃ reason, d.cause = .lexical reason) ∧
      errors.toList.Pairwise fun d e => d.line ≤ e.line := by
  obtain ⟨hnonempty, rfl⟩ := compile_eq_error_iff.mp h
  obtain ⟨marks, hmarks⟩ := Builder.marks_program source
  exact ⟨hnonempty, ⟨marks, hmarks⟩, fun d hd => hmarks.nowhere_iff hd,
    hmarks.lines (Token.lines_scan source)⟩

/-- A mistake at the token to come, one at the token read last, a character that is no
token and the end of the text. -/
theorem diagnostics_follow_tokens_mixed : ∃ errors, compile "print 1 2;
3 = 4;
@ (5" = .error errors ∧
    errors ≠ #[] ∧ (∃ marks, Diagnostic.Marks (Token.scan "print 1 2;
3 = 4;
@ (5") errors marks) ∧
      (∀ d ∈ errors, d.location = .nowhere ↔ ∃ reason, d.cause = .lexical reason) ∧
      errors.toList.Pairwise fun d e => d.line ≤ e.line := by
  obtain ⟨errors, herrors⟩ := exists_of_not_isOk
    (show (compile "print 1 2;
3 = 4;
@ (5").isOk = false by decide +kernel)
  exact ⟨errors, herrors, diagnostics_follow_tokens herrors⟩

end StackScript
