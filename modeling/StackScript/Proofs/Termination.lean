import StackScript.Proofs.Reader.Agreement
import StackScript.Proofs.Token.Spelling

/-!
Compilation ends, and never goes deeper than its limit. The readers run as code without bounds: at
every point of a run there are as many levels open as bodies are being run, every loop takes a token
away before it goes on, and what is called comes back to the level on which it was called.
-/

namespace StackScript.Reader

open Builder

/-- What holds at every point of a run. -/
structure Sound (c : Config) : Prop where
  ending : c.builder.Ending
  level : c.builder.nesting = active c.tasks
  limit : active c.tasks ≤ nestingMax

namespace Sound

theorem start (source : String) : Sound (start source) := by
  obtain ⟨front, last, hscan, hlast, hfront, -⟩ := Token.scan_eq source
  exact ⟨Or.inl ⟨front, last, hscan, hlast, hfront⟩, rfl, Nat.zero_le _⟩

theorem step {c c' : Config} (h : Sound c) (hstep : step c = some c') : Sound c' := by
  obtain ⟨hending, hlevel, hlimit⟩ := h
  cases change_of_step hstep with
  | quiet h hactive =>
      exact ⟨h.ending hending, by rw [h.nesting, hactive, hlevel], hactive ▸ hlimit⟩
  | take hactive =>
      exact ⟨hending.take, by rw [nesting_take, hactive, hlevel], hactive ▸ hlimit⟩
  | enter hroom hactive =>
      refine ⟨hending, by rw [hactive, ← hlevel], ?_⟩
      rw [hactive, ← hlevel]
      exact Nat.lt_of_le_of_ne (hlevel ▸ hlimit) hroom
  | leave hactive =>
      dsimp only at hlevel hlimit
      refine ⟨hending, ?_, by dsimp only; omega⟩
      dsimp only
      omega

theorem of_steps {source : String} {c : Config} (h : Steps (Reader.start source) c) : Sound c := by
  induction h with
  | refl => exact start source
  | tail _ hstep ih => exact ih.step hstep

theorem at_active {c : Config} (h : Sound c) : At (active c.tasks) c.builder := ⟨h.ending, h.level⟩

end Sound

variable {n : Nat} {b b' : Builder}

/-- A loop that goes on has tokens before it. -/
theorem Loop.unread_ne_nil {l : Loop} (hb : b.Ending) (h : l.more b = true) : b.unread ≠ [] := by
  cases l with
  | faults =>
      intro hnil
      simp [more, faultAhead, hnil] at h
  | recovery => exact hb.unread_ne_nil (Code.current_ne_of_recovery h)
  | joins p => exact hb.unread_ne_nil (Code.current_ne_of_joins h)
  | block => exact hb.unread_ne_nil (Code.current_ne_of_block h)
  | text => exact hb.unread_ne_nil (Code.current_ne_of_text h)

/-- A round of a loop comes to its end and has taken a token. -/
theorem Loop.exists_round {l : Loop} (hn : n ≤ nestingMax) (hb : At n b) (h : l.more b = true) :
    ∃ b', l.round.Runs b b' ∧ At n b' ∧ b'.unread.length < b.unread.length := by
  cases l with
  | faults =>
      refine ⟨b.take, Code.runs_take b, ⟨hb.ending.take, (nesting_take b).trans hb.level⟩, ?_⟩
      obtain ⟨t, rest, hunread⟩ := List.exists_cons_of_ne_nil (unread_ne_nil hb.ending h)
      unfold Builder.take
      simp only [hunread]
      split <;> exact Nat.lt_succ_self _
  | recovery =>
      obtain ⟨hruns, hlast⟩ := Code.does_advance hb
      exact ⟨_, hruns, hlast,
        Code.unread_lt hb (Code.current_ne_of_recovery h) (Nat.le_refl _)⟩
  | joins p =>
      obtain ⟨hdoes, hshorter⟩ := Code.round_joins
        (Code.does_operand (nestingMax + 1) hn (by omega)) (closed_unread.operand _) hb h
      obtain ⟨hruns, hlast⟩ := hdoes hb
      exact ⟨_, hruns, hlast, hshorter⟩
  | block =>
      obtain ⟨hdoes, hshorter⟩ := Code.round_topDeclaration hn hb (Code.current_ne_of_block h)
      obtain ⟨hruns, hlast⟩ := hdoes hb
      exact ⟨_, hruns, hlast, hshorter⟩
  | text =>
      obtain ⟨hdoes, hshorter⟩ := Code.round_topDeclaration hn hb (Code.current_ne_of_text h)
      obtain ⟨hruns, hlast⟩ := hdoes hb
      exact ⟨_, hruns, hlast, hshorter⟩

/-- What is called comes back, on the level on which it was called. -/
theorem exists_return (p : Proc) (hn : n ≤ nestingMax) (hb : At n b) :
    ∃ b', (Code.call p).Runs b b' ∧ At n b' ∧
      (p = .declaration → b.current.kind ≠ .endOfFile → b'.unread.length < b.unread.length) := by
  have hoperand (p : Precedence) (b : Builder) :=
    Code.does_operand (n := n) (nestingMax + 1) hn (by omega) p b
  have hstatement (b : Builder) := Code.does_statement (n := n) (nestingMax + 1) hn (by omega) b
  cases p with
  | declaration =>
      obtain ⟨hruns, hlast⟩ := Code.does_call (p := .declaration)
        (Code.does_declaration (hoperand .assignment) hstatement) hb
      exact ⟨_, hruns, hlast, fun _ hmore => (Code.round_topDeclaration hn hb hmore).2⟩
  | statement =>
      obtain ⟨hruns, hlast⟩ := hstatement b hb
      exact ⟨_, hruns, hlast, nofun⟩
  | operand p =>
      obtain ⟨hruns, hlast⟩ := hoperand p b hb
      exact ⟨_, hruns, hlast, nofun⟩

/-- Tokens that were taken while others remain are not all end markers. -/
theorem exists_taken (hb : b.Ending) (hsuffix : b'.unread <:+ b.unread)
    (hshorter : b'.unread.length < b.unread.length) :
    ∃ taken, taken ≠ [] ∧ b.unread = taken ++ b'.unread ∧
      (b'.unread ≠ [] → ∃ t ∈ taken, t.kind ≠ .endOfFile) := by
  obtain ⟨taken, htaken⟩ := hsuffix
  rw [← htaken, List.length_append] at hshorter
  obtain ⟨t, more, rfl⟩ := List.exists_cons_of_length_pos (l := taken) (by omega)
  refine ⟨t :: more, List.cons_ne_nil t more, htaken.symm, fun hne => ⟨t, List.mem_cons_self, ?_⟩⟩
  obtain hcomplete | ⟨hnil, -⟩ := hb
  · rw [← htaken] at hcomplete
    exact (hcomplete.kind_ne (List.append_ne_nil_of_right_ne_nil more hne)).1
  · rw [← htaken] at hnil
    cases hnil

/-- Every text is compiled in finitely many steps of the readers, none of which is bounded from
outside, and the builder is then the one that the compiler makes of the text.

At every point of the run there are as many levels open as bodies are being run, and at most
`nestingMax`. What is called comes back, whatever way it takes, with as many levels open as before,
and a declaration called before the end has taken a token. A round of a loop comes to its end,
and if the loop goes on after it, the round has taken a token other than the end marker. -/
theorem compilation_terminates (source : String) :
    (∃ last, Steps (start source) last ∧ step last = none ∧
        last.builder = Builder.program (Token.scan source)) ∧
      (∀ tasks b, Steps (start source) ⟨tasks, b⟩ →
        b.nesting = active tasks ∧ active tasks ≤ nestingMax) ∧
      (∀ p rest b, Steps (start source) ⟨.run (.call p) :: rest, b⟩ →
        ∃ b', (Code.call p).Runs b b' ∧ b'.nesting = b.nesting ∧
          (p = .declaration → b.current.kind ≠ .endOfFile →
            ∃ taken, taken ≠ [] ∧ b.unread = taken ++ b'.unread)) ∧
      ∀ l rest b, Steps (start source) ⟨.run (.loop l) :: rest, b⟩ → l.more b = true →
        ∃ b', l.round.Runs b b' ∧ (l.more b' = true →
          ∃ taken, b.unread = taken ++ b'.unread ∧ ∃ t ∈ taken, t.kind ≠ .endOfFile) := by
  refine ⟨?_, fun tasks b h => ?_, fun p rest b h => ?_, fun l rest b h hmore => ?_⟩
  · obtain ⟨hruns, -⟩ := Code.does_program (Token.scan source) (Sound.start source).at_active
    exact ⟨_, hruns [], rfl, rfl⟩
  · have hsound := Sound.of_steps h
    exact ⟨hsound.level, hsound.limit⟩
  · have hsound := Sound.of_steps h
    obtain ⟨b', hruns, hlast, hshorter⟩ := exists_return p hsound.limit hsound.at_active
    refine ⟨b', hruns, hlast.level.trans hsound.level.symm, fun hp hend => ?_⟩
    obtain ⟨taken, hne, htaken, -⟩ := exists_taken hsound.ending hruns.suffix (hshorter hp hend)
    exact ⟨taken, hne, htaken⟩
  · have hsound := Sound.of_steps h
    obtain ⟨b', hruns, hlast, hshorter⟩ := Loop.exists_round hsound.limit hsound.at_active hmore
    obtain ⟨taken, -, htaken, hkind⟩ := exists_taken hsound.ending hruns.suffix hshorter
    exact ⟨b', hruns, fun hagain => ⟨taken, htaken, hkind (Loop.unread_ne_nil hlast.ending hagain)⟩⟩

end StackScript.Reader
