import StackScript.Proofs.Machine.Keeping
import StackScript.Session

/-!
What running a whole chunk gives, told by the path that the run takes: its end where there
is one, and nothing as long as the fuel does not reach it.
-/

namespace StackScript

/-- A run from the start of the code comes to this end. -/
def Chunk.Leads (c : Chunk) (m : Machine) (outcome : Outcome) (m' : Machine) : Prop :=
  ∃ n ip m₁, c.Path n 0 m ip m₁ ∧ c.Ends ip m₁ outcome m'

/-- A run from the start of the code is longer than any number of steps. -/
def Chunk.GoesOn (c : Chunk) (m : Machine) : Prop :=
  ∀ n, ∃ k ip m', n ≤ k ∧ c.Path k 0 m ip m'

namespace Chunk

variable {c : Chunk} {m m' m'' : Machine} {outcome outcome' : Outcome}

/-- A run has one end. -/
theorem Leads.unique (h : c.Leads m outcome m') (h' : c.Leads m outcome' m'') :
    outcome = outcome' ∧ m' = m'' := by
  obtain ⟨n, ip, m₁, hpath, hends⟩ := h
  obtain ⟨n', ip', m₁', hpath', hends'⟩ := h'
  obtain ⟨log, hgo⟩ := Run.go_of_path false hpath (n' + 1) #[]
  obtain ⟨log', hgo'⟩ := Run.go_of_path false hpath' (n + 1) #[]
  obtain ⟨last, hlast⟩ := Run.go_of_ends false hends n' log
  obtain ⟨last', hlast'⟩ := Run.go_of_ends false hends' n log'
  have hfuel : n + (n' + 1) = n' + (n + 1) := Nat.add_left_comm n n' 1
  rw [hfuel, hgo', hlast', hlast] at hgo
  injection hgo with _ _ _ hmachine _ houtcome
  exact ⟨(Option.some.inj houtcome).symm, hmachine.symm⟩

/-- A run comes to an end or goes on for ever. -/
theorem leads_or_goesOn (c : Chunk) (m : Machine) :
    (∃ outcome m', c.Leads m outcome m') ∨ c.GoesOn m := by
  by_cases hends : ∃ outcome m', c.Leads m outcome m'
  · exact Or.inl hends
  · refine Or.inr fun n => ?_
    rcases Run.path_of_go (c := c) false n 0 m #[] with
      ⟨-, hpath⟩ | ⟨outcome, k, m₁, -, -, hpath, hlast⟩
    · exact ⟨n, _, _, Nat.le_refl n, hpath⟩
    · exact absurd ⟨outcome, _, k, _, m₁, hpath, hlast⟩ hends

theorem Leads.not_goesOn (h : c.Leads m outcome m') : ¬ c.GoesOn m := by
  obtain ⟨n, ip, m₁, hpath, hends⟩ := h
  intro hgoes
  obtain ⟨k, ip', m₂, hlong, hpath'⟩ := hgoes (n + 1)
  have hnone := Run.outcome_of_path false hpath' hlong #[]
  obtain ⟨log, hgo⟩ := Run.go_of_path false hpath 1 #[]
  obtain ⟨last, hlast⟩ := Run.go_of_ends false hends 0 log
  rw [hgo, hlast] at hnone
  cases hnone

end Chunk

namespace Machine

variable {c : Chunk} {n ip : Nat} {m m₁ m₂ : Machine} {outcome : Outcome}

theorem runChunk_of_ends (hpath : c.Path n 0 m ip m₁) (hends : c.Ends ip m₁ outcome m₂)
    (tracing : Bool) {fuel : Nat} (hfuel : n < fuel) : ∃ log, m.runChunk fuel tracing c =
      some ({ m₂ with stack := m₂.stack.reset }, outcome.failure?, log) := by
  obtain ⟨k, rfl⟩ := Nat.exists_eq_add_of_lt hfuel
  obtain ⟨log, hgo⟩ := Run.go_of_path tracing hpath (k + 1) #[]
  obtain ⟨log', hlast⟩ := Run.go_of_ends tracing hends k log
  refine ⟨log' ++ outcome.records, ?_⟩
  unfold runChunk
  rw [Run.advance_start, Nat.add_assoc, hgo, hlast]
  rfl

theorem runChunk_of_path (hpath : c.Path n 0 m ip m₁) (tracing : Bool) {fuel : Nat}
    (hfuel : fuel ≤ n) : m.runChunk fuel tracing c = none := by
  have hnone : ((Run.start c tracing m).advance fuel).outcome = none :=
    Run.outcome_of_path tracing hpath hfuel #[]
  unfold runChunk
  simp only [hnone, Option.map_none]

/-- A run that gives something has come to its end. -/
theorem ends_of_runChunk {fuel : Nat} {tracing : Bool} {m' : Machine} {failure : Option Failure}
    {log : Array Record} (h : m.runChunk fuel tracing c = some (m', failure, log)) :
    ∃ n ip m₁ m₂ outcome, n < fuel ∧ c.Path n 0 m ip m₁ ∧ c.Ends ip m₁ outcome m₂ ∧
      m' = { m₂ with stack := m₂.stack.reset } ∧ failure = outcome.failure? := by
  rcases Run.path_of_go (c := c) tracing fuel 0 m #[] with
    ⟨-, hpath⟩ | ⟨outcome, k, m₁, -, hk, hpath, hends⟩
  · rw [runChunk_of_path hpath tracing (Nat.le_refl fuel)] at h
    cases h
  · obtain ⟨log', hrun⟩ := runChunk_of_ends hpath hends tracing hk
    obtain ⟨rfl, rfl, -⟩ : _ ∧ _ ∧ _ := by simpa [hrun] using h
    exact ⟨k, _, m₁, _, outcome, hk, hpath, hends, rfl, rfl⟩

/-- What the instructions of a run keep still holds before the stack is emptied. -/
theorem keeps_of_runChunk {P : Machine → Prop} {Q : Nat → Prop} {fuel : Nat} {tracing : Bool}
    {m' : Machine} {failure : Option Failure} {log : Array Record}
    (hleads : ∀ (ip : Nat) (m : Machine) (ip' : Nat) (m' : Machine),
      Q ip → m.step c ip = .ok ip' m' → Q ip')
    (h : ∀ ip, Q ip → ∀ i, (c.fetch ip).result = .ok i → i.Harmless P) (hstart : Q 0) (hm : P m)
    (hruns : m.runChunk fuel tracing c = some (m', failure, log)) :
    ∃ m₂, P m₂ ∧ m' = { m₂ with stack := m₂.stack.reset } := by
  obtain ⟨n, ip, m₁, m₂, outcome, -, hpath, hends, hm', -⟩ := ends_of_runChunk hruns
  obtain ⟨hip, hbefore⟩ := keeps_of_path hleads h hstart hm hpath
  exact ⟨m₂, keeps_of_ends (h ip hip) hbefore hends, hm'⟩

/-- What running a chunk gives, whatever fuel it takes. -/
theorem exists_runChunk_iff {tracing : Bool} {m' : Machine} {failure : Option Failure} :
    (∃ fuel log, m.runChunk fuel tracing c = some (m', failure, log)) ↔
      ∃ outcome m₂, c.Leads m outcome m₂ ∧ m' = { m₂ with stack := m₂.stack.reset } ∧
        failure = outcome.failure? := by
  constructor
  · rintro ⟨fuel, log, hruns⟩
    obtain ⟨n, ip, m₁, m₂, outcome, -, hpath, hends, hmachine, hfailure⟩ := ends_of_runChunk hruns
    exact ⟨outcome, m₂, ⟨n, ip, m₁, hpath, hends⟩, hmachine, hfailure⟩
  · rintro ⟨outcome, m₂, ⟨n, ip, m₁, hpath, hends⟩, rfl, rfl⟩
    obtain ⟨log, hruns⟩ := runChunk_of_ends hpath hends tracing (Nat.lt_succ_self n)
    exact ⟨n + 1, log, hruns⟩

section Interpret

variable {m' : Machine} {fuel : Nat} {tracing : Bool} {source : String} {failure : Option Failure}
  {log : Array Record}

theorem interpret_of_error {errors : Array Diagnostic} (hc : compile source = .error errors) :
    m.interpret fuel tracing source = some (m, some (.compile errors),
      if tracing then compileRecords (.error errors) else #[]) := by
  unfold interpret
  rw [hc]

theorem interpret_of_ok (hc : compile source = .ok c) :
    m.interpret fuel tracing source = (m.runChunk fuel tracing c).map fun (m', failure, log) =>
      (m', failure, (if tracing then compileRecords (.ok c) else #[]) ++ log) := by
  unfold interpret
  rw [hc]
  dsimp only
  cases m.runChunk fuel tracing c <;> rfl

/-- A text is run if it compiles, and otherwise changes nothing. -/
theorem run_of_interpret (h : m.interpret fuel tracing source = some (m', failure, log)) :
    (∃ errors, compile source = .error errors ∧ m' = m ∧ failure = some (.compile errors)) ∨
      ∃ c log, compile source = .ok c ∧ m.runChunk fuel tracing c = some (m', failure, log) := by
  cases hc : compile source with
  | error errors =>
      rw [interpret_of_error hc] at h
      obtain ⟨rfl, rfl, -⟩ : _ ∧ _ ∧ _ := by simpa using h
      exact Or.inl ⟨errors, rfl, rfl, rfl⟩
  | ok c =>
      rw [interpret_of_ok hc] at h
      obtain ⟨⟨m₁, reason, records⟩, hruns, hresult⟩ := Option.map_eq_some_iff.mp h
      obtain ⟨rfl, rfl, -⟩ : _ ∧ _ ∧ _ := by simpa using hresult
      exact Or.inr ⟨c, records, rfl, hruns⟩

end Interpret

end Machine

end StackScript
