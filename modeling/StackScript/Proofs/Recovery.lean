import StackScript.Proofs.Overflow

/-!
Recovery at the top level. Between two declarations there nothing is left of what has been
read but the names and numbers in the pool of constants, so what is reported from there on
is what the remaining text is told on its own. A declaration with a mistake is left calmly,
unless there is another fault in what is skipped behind the mistake.
-/

namespace StackScript

namespace Builder

variable {b : Builder}

/-- Some tokens have been passed, and only at a fault among them can a panic have begun. -/
def Passes (b b' : Builder) : Prop :=
  ∃ passed, b.unread = passed ++ b'.unread ∧
    ((∀ t ∈ passed, t.Sound) → b'.panicking = b.panicking)

namespace Passes

theorem refl (b : Builder) : b.Passes b :=
  ⟨[], rfl, fun _ => rfl⟩

theorem trans {b b' b'' : Builder} (h : b.Passes b') (h' : b'.Passes b'') : b.Passes b'' := by
  obtain ⟨passed, hunread, hcalm⟩ := h
  obtain ⟨passed', hunread', hcalm'⟩ := h'
  refine ⟨passed ++ passed', ?_, fun hsound => ?_⟩
  · rw [hunread, hunread', List.append_assoc]
  · obtain ⟨hsound, hsound'⟩ := List.forall_mem_append.mp hsound
    exact (hcalm' hsound').trans (hcalm hsound)

theorem load (unread : List Token) (b : Builder) :
    ({ b with unread } : Builder).Passes (Builder.load unread b) := by
  induction unread generalizing b with
  | nil => exact refl _
  | cons t rest ih =>
      rw [Builder.load]
      split
      · rename_i reason hkind
        obtain ⟨passed, hrest, -⟩ := ih (b.report t (.lexical reason))
        refine ⟨t :: passed, congrArg (t :: ·) hrest, fun hsound => ?_⟩
        exact absurd hkind (hsound t (List.mem_cons_self ..) reason)
      · exact ⟨[t], rfl, fun _ => rfl⟩

theorem advance (b : Builder) : b.Passes b.advance :=
  load b.unread { b with previous := b.current }

theorem repeatWhile (more : Builder → Bool) (bound : List Token) (b : Builder) :
    b.Passes (Builder.repeatWhile more Builder.advance bound b) := by
  induction bound generalizing b with
  | nil => exact refl b
  | cons _ rest ih =>
      rw [Builder.repeatWhile]
      split
      · exact (advance b).trans (ih b.advance)
      · exact refl b

end Passes

/-- A declaration at the top level, without the recovery from a mistake in it. -/
def topUnrecovered (b : Builder) : Builder :=
  if b.sees .varWord then b.advance.varDeclaration (expression (nestingMax + 1))
  else statement (nestingMax + 1) b

theorem topDeclaration_eq (b : Builder) : b.topDeclaration =
    if b.topUnrecovered.panicking then b.topUnrecovered.synchronize else b.topUnrecovered :=
  rfl

/-- What is taken in by the recovery from a mistake in a declaration at the top level. -/
def recoveryTokens (b : Builder) : List Token :=
  b.topUnrecovered.unread.take (b.topUnrecovered.unread.length - b.topDeclaration.unread.length)

theorem recoveryTokens_eq {passed : List Token}
    (h : b.topUnrecovered.unread = passed ++ b.topDeclaration.unread) :
    b.recoveryTokens = passed := by
  unfold recoveryTokens
  rw [h, List.length_append, Nat.add_sub_cancel]
  exact List.take_left

/-- A declaration is left calmly if the recovery meets no fault. -/
theorem calm_topDeclaration (h : ∀ t ∈ b.recoveryTokens, t.Sound) :
    b.topDeclaration.panicking = false := by
  cases hpanic : b.topUnrecovered.panicking with
  | false =>
      rw [topDeclaration_eq, hpanic]
      exact hpanic
  | true =>
      have hrecovered : b.topDeclaration = b.topUnrecovered.synchronize := by
        rw [topDeclaration_eq, if_pos hpanic]
      obtain ⟨passed, hpassed, hcalm⟩ : Passes { b.topUnrecovered with panicking := false }
        b.topUnrecovered.synchronize := Passes.repeatWhile _ _ _
      rw [← hrecovered] at hpassed hcalm
      rw [recoveryTokens_eq hpassed] at h
      exact hcalm h

theorem suffix_topUnrecovered (b : Builder) : b.topUnrecovered.unread <:+ b.unread := by
  unfold topUnrecovered
  split
  · exact closed_suffix.trans (closed_suffix.advance b)
      (closed_suffix.varDeclaration (closed_suffix.expression _) b.advance)
  · exact closed_suffix.statement _ b

namespace AtTop

variable {tokens : List Token}

theorem suffix (h : AtTop tokens b) : b.unread <:+ tokens := by
  induction h with
  | start => exact closed_suffix.advance { unread := tokens }
  | next _ _ ih => exact (closed_suffix.topDeclaration _).trans ih

/-- In a text without faults no panic lasts. -/
theorem calm (h : AtTop tokens b) (hsound : ∀ t ∈ tokens, t.Sound) : b.panicking = false := by
  cases h with
  | start =>
      obtain ⟨passed, hpassed, hcalm⟩ := Passes.advance { unread := tokens }
      dsimp only at hpassed
      exact hcalm fun t ht => hsound t (hpassed ▸ List.mem_append_left _ ht)
  | @next b h _ =>
      have hsuffix := (suffix_topUnrecovered b).trans h.suffix
      exact calm_topDeclaration fun t ht => hsound t (hsuffix.subset (List.mem_of_mem_take ht))

end AtTop

end Builder

/-- What is wrong with a text. -/
def diagnostics (source : String) : Array Diagnostic :=
  match compile source with
  | .ok _ => #[]
  | .error errors => errors

theorem diagnostics_eq (source : String) :
    diagnostics source = (Builder.program (Token.scan source)).errors := by
  unfold diagnostics compile
  dsimp only
  split
  · rename_i heq
    split at heq
    · rename_i hempty
      exact (Array.isEmpty_iff.mp hempty).symm
    · cases heq
  · rename_i heq
    split at heq
    · cases heq
    · exact (Except.error.inj heq).symm

/-- There are no more constants than the pool has room for. -/
def SmallPool (source : String) : Prop :=
  ∀ d ∈ diagnostics source, d.cause ≠ .tooManyConstants

instance (source : String) : Decidable (SmallPool source) :=
  inferInstanceAs (Decidable (∀ d ∈ diagnostics source, d.cause ≠ .tooManyConstants))

/-- Between two declarations at the top level no scope is open and no panic is left over,
unless the recovery from a mistake has met a fault. Where there is none, the rest of the text
has the diagnostics it has on its own, as long as the constants of neither are too many. -/
theorem recovers_at_top {source : String} {b : Builder} (h : Builder.AtTop (Token.scan source) b) :
    b.nesting = 0 ∧ b.scopeDepth = 0 ∧ b.locals = [] ∧
      ((∀ t ∈ Token.scan source, t.Sound) → b.panicking = false) ∧
      (∀ b₀ : Builder, b₀.topDeclaration = b → (∀ t ∈ b₀.recoveryTokens, t.Sound) →
        b.panicking = false) ∧
      (b.panicking = false →
        ∃ before rest : String, source = before ++ rest ∧ before.utf8ByteSize = b.current.start ∧
          (SmallPool source → SmallPool rest → diagnostics source =
            b.errors ++ (diagnostics rest).map (Diagnostic.later (before.toList.count '\n')))) := by
  refine ⟨h.nesting, h.scopeDepth, h.locals, h.calm, ?_, fun hcalm => ?_⟩
  · rintro b₀ rfl hsound
    exact Builder.calm_topDeclaration hsound
  · obtain ⟨before, rest, hsource, hstart, hahead⟩ := h.exists_rest
    refine ⟨before, rest, hsource, hstart, fun hsmall hsmall' => ?_⟩
    rw [diagnostics_eq, diagnostics_eq]
    obtain hlast | ⟨d, hd, hcause⟩ | ⟨d, hd, hcause⟩ := h.further_program hcalm hahead
    · exact hlast.errors
    · exact absurd hcause (hsmall d ((diagnostics_eq source).symm ▸ hd))
    · exact absurd hcause (hsmall' d ((diagnostics_eq rest).symm ▸ hd))

/-- One mistake on each side of the second declaration, with some tokens to skip. -/
theorem recovers_at_top_second_mistake :
    ∃ b₀ b : Builder, b₀.topDeclaration = b ∧
      Builder.AtTop (Token.scan "print 1 2 3;\nvar = @;") b ∧
      b₀.recoveryTokens.length = 3 ∧ (∀ t ∈ b₀.recoveryTokens, t.Sound) ∧ b.errors.size = 1 ∧
      (diagnostics "print 1 2 3;\nvar = @;").size = 2 ∧
      b.nesting = 0 ∧ b.scopeDepth = 0 ∧ b.locals = [] ∧ b.panicking = false ∧
      ∃ before rest : String, "print 1 2 3;\nvar = @;" = before ++ rest ∧
        before.utf8ByteSize = b.current.start ∧
        (SmallPool "print 1 2 3;\nvar = @;" → SmallPool rest →
          diagnostics "print 1 2 3;\nvar = @;" =
            b.errors ++ (diagnostics rest).map (Diagnostic.later (before.toList.count '\n'))) := by
  have hmore : (Builder.atStart (Token.scan "print 1 2 3;\nvar = @;")).sees .endOfFile = false := by
    decide +kernel
  have hsound : ∀ t ∈ (Builder.atStart (Token.scan "print 1 2 3;\nvar = @;")).recoveryTokens,
      t.Sound := by
    decide +kernel
  have htop := Builder.AtTop.start.next hmore
  obtain ⟨hnesting, hdepth, hlocals, -, hleft, hrest⟩ := recovers_at_top htop
  have hcalm := hleft _ rfl hsound
  exact ⟨_, _, rfl, htop, by decide +kernel, hsound, by decide +kernel, by decide +kernel,
    hnesting, hdepth, hlocals, hcalm, hrest hcalm⟩

/-- By itself the rest of the text asks for one constant more than the pool has room for, and
is told. Behind a first statement that has used the name it asks for last, the constant for
which there is no room is one in a mistake, and it is not told. -/
theorem refused_in_panic {names : List String} (h : LeavesOne names) : ∃ b : Builder,
    Builder.AtTop (Token.scan ("print p;" ++ "\n" ++ overfull names)) b ∧
      b.panicking = false ∧ ("print p;" ++ "\n").utf8ByteSize = b.current.start ∧
      SmallPool ("print p;" ++ "\n" ++ overfull names) ∧
      diagnostics ("print p;" ++ "\n" ++ overfull names) ≠
        b.errors ++ (diagnostics (overfull names)).map (Diagnostic.later 1) := by
  obtain ⟨b, htop, hclean, hstart⟩ := h.exists_between
  obtain ⟨line, hwhole⟩ := h.errors_name_sum
  obtain ⟨line', line'', hrest⟩ := h.errors_sum
  rw [← diagnostics_eq] at hwhole
  rw [← diagnostics_eq] at hrest
  refine ⟨b, htop, hclean.calm, hstart, ?_, ?_⟩
  · intro d hd
    rw [hwhole, List.mem_toArray, List.mem_singleton] at hd
    rw [hd]
    nofun
  · intro heq
    rw [hwhole, hrest, hclean.errors] at heq
    simpa using congrArg Array.size heq

/-- A panic can last: the recovery from the first mistake meets a character that is no token,
and the mistake in the next declaration is not told. -/
theorem panic_outlasts_declaration : ∃ b, Builder.AtTop (Token.scan (") 1 @ ; " ++ ") ;")) b ∧
    b.panicking = true ∧ (") 1 @ ; " : String).utf8ByteSize = b.current.start ∧
    SmallPool (") 1 @ ; " ++ ") ;") ∧ SmallPool ") ;" ∧
    diagnostics (") 1 @ ; " ++ ") ;") ≠
      b.errors ++ (diagnostics ") ;").map (Diagnostic.later 0) := by
  have hmore : (Builder.atStart (Token.scan (") 1 @ ; " ++ ") ;"))).sees .endOfFile = false := by
    decide +kernel
  exact ⟨_, Builder.AtTop.start.next hmore, by decide +kernel, by decide +kernel,
    by decide +kernel, by decide +kernel, by decide +kernel⟩

/-- What the rest of a text is told is not in general what is told of it behind a declaration.
That can be because the pool is full, as pools are that of a whole text, and because a panic
has lasted. -/
theorem told_otherwise_behind :
    (∃ b : Builder,
      Builder.AtTop
          (Token.scan ("print p;" ++ "\n" ++ overfull ((List.range 255).map numbered))) b ∧
        b.panicking = false ∧ ("print p;" ++ "\n").utf8ByteSize = b.current.start ∧
        SmallPool ("print p;" ++ "\n" ++ overfull ((List.range 255).map numbered)) ∧
        diagnostics ("print p;" ++ "\n" ++ overfull ((List.range 255).map numbered)) ≠
          b.errors ++ (diagnostics (overfull ((List.range 255).map numbered))).map
            (Diagnostic.later 1)) ∧
      ∃ b, Builder.AtTop (Token.scan (") 1 @ ; " ++ ") ;")) b ∧
        b.panicking = true ∧ (") 1 @ ; " : String).utf8ByteSize = b.current.start ∧
        SmallPool (") 1 @ ; " ++ ") ;") ∧ SmallPool ") ;" ∧
        diagnostics (") 1 @ ; " ++ ") ;") ≠
          b.errors ++ (diagnostics ") ;").map (Diagnostic.later 0) :=
  ⟨refused_in_panic leavesOne_numbered, panic_outlasts_declaration⟩

end StackScript
