import StackScript.Proofs.Compiler.Joined

/-!
A script and a session agree. Two texts that are compiled each on its own can be joined by a line
end and run as one program. That does what the first one does and then, if that has finished, what
the second one does on the machine that the first one leaves.
-/

namespace StackScript

/-- The same failure, a runtime error some lines later. -/
def Failure.later (lines : Nat) : Failure → Failure
  | .runtime e => .runtime { e with line := e.line + lines }
  | failure => failure

/-- With enough fuel, a text does this to a machine. -/
def Machine.Interprets (tracing : Bool) (source : String) (m m' : Machine)
    (failure : Option Failure) : Prop :=
  ∃ fuel log, m.interpret fuel tracing source = some (m', failure, log)

theorem Outcome.failure?_eq_none {outcome : Outcome} :
    outcome.failure? = none ↔ outcome = .finished := by
  cases outcome <;> simp [failure?]

theorem Outcome.failure?_later (lines : Nat) (outcome : Outcome) :
    (outcome.later lines).failure? = outcome.failure?.map (Failure.later lines) := by
  cases outcome <;> rfl

/-- There is nothing to clear in an empty stack. -/
theorem Stack.reset_of_empty {s : Stack} (h : s.height = 0) : s.reset = s := by
  cases s
  subst h
  exact congrArg (Stack.mk · 0) (Array.ext_getElem? fun i => by simp)

namespace Machine

variable {source : String} {c : Chunk} {tracing : Bool} {m m' : Machine} {failure : Option Failure}

/-- What a text that is compiled does is told by the run of its chunk. -/
theorem interprets_iff (h : compile source = .ok c) :
    m.Interprets tracing source m' failure ↔ ∃ outcome m₁, c.Leads m outcome m₁ ∧
      m' = { m₁ with stack := m₁.stack.reset } ∧ failure = outcome.failure? := by
  refine Iff.trans (b := ∃ fuel log, m.runChunk fuel tracing c = some (m', failure, log)) ?_
    exists_runChunk_iff
  unfold Interprets
  simp only [interpret_of_ok h]
  constructor
  · rintro ⟨fuel, log, hruns⟩
    obtain ⟨⟨m₁, failure', log'⟩, hchunk, hsame⟩ := Option.map_eq_some_iff.mp hruns
    obtain ⟨rfl, rfl, -⟩ : _ ∧ _ ∧ _ := by simpa using hsame
    exact ⟨fuel, log', hchunk⟩
  · rintro ⟨fuel, log, hchunk⟩
    exact ⟨fuel, _, by rw [hchunk]; rfl⟩

end Machine

/-- Two texts that are compiled, and whose chunks have together not too many constants, are
compiled also as one. From an empty stack that one does to the machine, the globals and the sink
included, what the first text does, and then, only if that one finishes, what the second text does.
An error in the second text is as many lines later as there are before that text. -/
theorem interpret_append {first second : String} {c d : Chunk} (hc : compile first = .ok c)
    (hd : compile second = .ok d) (hroom : c.constantsTogether d ≤ Chunk.constantsMax) :
    (∃ e, compile (first ++ "\n" ++ second) = .ok e) ∧
      ∀ (tracing : Bool) (m m' : Machine) (failure : Option Failure), m.stack.height = 0 →
        (m.Interprets tracing (first ++ "\n" ++ second) m' failure ↔
          (m.Interprets tracing first m' failure ∧ failure ≠ none) ∨
            ∃ m₁ failure', m.Interprets tracing first m₁ none ∧
              m₁.Interprets tracing second m' failure' ∧
              failure = failure'.map (Failure.later (first.toList.count '\n' + 1))) := by
  obtain ⟨e, sites, sites', he, hjoins⟩ := Chunk.exists_joins hc hd hroom
  refine ⟨⟨e, he⟩, fun tracing m m' failure hempty => ?_⟩
  have hkept {m₁ : Machine} (h : c.Leads m .finished m₁) :
      { m₁ with stack := m₁.stack.reset } = m₁ := by
    rw [Stack.reset_of_empty (hjoins.first.follows.empty_of_leads hempty h)]
  rw [Machine.interprets_iff he, Machine.interprets_iff hc]
  constructor
  · rintro ⟨outcome, m₂, hleads, rfl, rfl⟩
    obtain ⟨hfirst, hfails⟩ | ⟨m₁, outcome', hfirst, hsecond, rfl⟩ := hjoins.leads_iff.mp hleads
    · exact Or.inl ⟨⟨outcome, m₂, hfirst, rfl, rfl⟩, mt Outcome.failure?_eq_none.mp hfails⟩
    · refine Or.inr ⟨m₁, outcome'.failure?, ?_, ?_, Outcome.failure?_later _ _⟩
      · exact (Machine.interprets_iff hc).mpr ⟨.finished, m₁, hfirst, (hkept hfirst).symm, rfl⟩
      · exact (Machine.interprets_iff hd).mpr ⟨outcome', m₂, hsecond, rfl, rfl⟩
  · rintro (⟨⟨outcome, m₂, hfirst, rfl, rfl⟩, hfails⟩ | ⟨m₁, failure', hfirst, hsecond, rfl⟩)
    · have hunfinished : outcome ≠ .finished := mt Outcome.failure?_eq_none.mpr hfails
      exact ⟨outcome, m₂, hjoins.leads_iff.mpr (Or.inl ⟨hfirst, hunfinished⟩), rfl, rfl⟩
    · obtain ⟨outcome, m₂, hfirst, rfl, hfinished⟩ := (Machine.interprets_iff hc).mp hfirst
      obtain rfl := Outcome.failure?_eq_none.mp hfinished.symm
      rw [hkept hfirst, Machine.interprets_iff hd] at hsecond
      obtain ⟨outcome', m₃, hsecond, rfl, rfl⟩ := hsecond
      refine ⟨outcome'.later _, m₃, ?_, rfl, (Outcome.failure?_later _ _).symm⟩
      exact hjoins.leads_iff.mpr (Or.inr ⟨m₂, outcome', hfirst, hsecond, rfl⟩)

theorem exists_of_size {source : String} {size : Nat}
    (h : (compile source).toOption.map (·.constants.size) = some size) :
    ∃ c, compile source = .ok c ∧ c.constants.size = size := by
  cases hc : compile source with
  | ok c =>
      rw [hc] at h
      exact ⟨c, rfl, Option.some.inj h⟩
  | error errors =>
      rw [hc] at h
      cases h

/-- A second text that uses a constant of the first one and fails on its second line. -/
theorem interpret_append_fails : ∃ c d,
    compile "var a = 1;\n{ var b = a; print b; }" = .ok c ∧
      compile "print 1;\nprint -nil;" = .ok d ∧
      c.constantsTogether d ≤ Chunk.constantsMax ∧
      (∃ e, compile ("var a = 1;\n{ var b = a; print b; }" ++ "\n" ++ "print 1;\nprint -nil;") =
        .ok e) ∧
      ∀ tracing m' failure, ({} : Machine).stack.height = 0 ∧
        (({} : Machine).Interprets tracing
            ("var a = 1;\n{ var b = a; print b; }" ++ "\n" ++ "print 1;\nprint -nil;") m' failure ↔
          (({} : Machine).Interprets tracing "var a = 1;\n{ var b = a; print b; }" m' failure ∧
              failure ≠ none) ∨
            ∃ m₁ failure',
              ({} : Machine).Interprets tracing "var a = 1;\n{ var b = a; print b; }" m₁ none ∧
              m₁.Interprets tracing "print 1;\nprint -nil;" m' failure' ∧
              failure = failure'.map
                (Failure.later ("var a = 1;\n{ var b = a; print b; }".toList.count '\n' + 1))) := by
  obtain ⟨c, hc, hsize⟩ : ∃ c, compile "var a = 1;\n{ var b = a; print b; }" = .ok c ∧
      c.constants.size = 2 := exists_of_size (by decide +kernel)
  obtain ⟨d, hd, hsize'⟩ : ∃ d, compile "print 1;\nprint -nil;" = .ok d ∧ d.constants.size = 1 :=
    exists_of_size (by decide +kernel)
  have hroom : c.constantsTogether d ≤ Chunk.constantsMax := by
    have hbeyond := List.length_filter_le (fun v => !c.constants.toList.any (·.same v))
      d.constants.toList
    calc c.constantsTogether d ≤ c.constants.size + d.constants.size :=
      Nat.add_le_add_left hbeyond _
      _ ≤ Chunk.constantsMax := by rw [hsize, hsize']; decide
  obtain ⟨hjoined, hall⟩ := interpret_append hc hd hroom
  exact ⟨c, d, hc, hd, hroom, hjoined, fun tracing m' failure =>
    ⟨rfl, hall tracing {} m' failure rfl⟩⟩

end StackScript
