import StackScript.Proofs.Compiler.Program
import StackScript.Proofs.Machine.Ending
import StackScript.Proofs.Simulation.Statement

/-!
Compilation keeps the meaning of programs: a compiled chunk does what evaluation of the
tree does. It comes to an end exactly if evaluation does, and then both have printed the
same, left the same globals, and failed in the same way or not at all.
-/

namespace StackScript

open Tree

namespace Chunk

/-- The chunk of an admissible program carries out its tree from the start. -/
theorem Encodes.hosts {c : Chunk} {tree : Stmt} {tokens : List Token} (h : c.Encodes tree)
    (htokens : ProgramTokens tree tokens) (hadmissible : tree.admissible = true) :
    c.Hosts 0 true [] tree ∧ c.Has (codeSize (tree.code c.constants.toList true []))
      [.plain .ret] := by
  obtain ⟨-, -, hlocals, hroom, hfits⟩ := Stmt.admissible_iff.mp hadmissible
  have hhas : c.Has 0 (tree.code c.constants.toList true [] ++ [.plain .ret]) := by
    rw [h.constants, Has, h.code]
    exact List.prefix_rfl
  obtain ⟨hcode, hret⟩ := has_append.mp hhas
  rw [Nat.zero_add] at hret
  refine ⟨⟨⟨hcode, ?_⟩, ?_, hlocals, fun v hv => ?_, htokens.regular⟩, hret⟩
  · rwa [h.constants]
  · rwa [h.constants]
  · rw [h.constants]
    exact mem_grow hv

/-- Evaluation that gives a result leads the chunk to an end that agrees with it, and
evaluation that runs out of fuel leaves the chunk with at least as many steps to do. -/
theorem Encodes.carries {c : Chunk} {tree : Stmt} {tokens : List Token} (h : c.Encodes tree)
    (htokens : ProgramTokens tree tokens) (hadmissible : tree.admissible = true) {m : Machine}
    (hslots : m.stack.slots.size = Stack.capacity) (hempty : m.stack.height = 0)
    (hunlimited : m.sink.limit = none) (fuel : Nat) :
    match tree.evaluate fuel m.globals with
    | some (fault, s) => ∃ n ip m₁ m₂ outcome, c.Path n 0 m ip m₁ ∧ c.Ends ip m₁ outcome m₂ ∧
        m₂.Agrees m.sink.written s ∧ outcome.failure?.map Failure.fault? = fault.map some
    | none => ∃ n ip m₁, fuel ≤ n ∧ c.Path n 0 m ip m₁ := by
  obtain ⟨hhosts, hret⟩ := h.hosts htokens hadmissible
  have hmirrors : m.Mirrors m.sink.written ⟨0, [], []⟩ { globals := m.globals } :=
    ⟨⟨rfl, (Array.append_empty).symm⟩, Stack.holds_nil hslots hempty, rfl, hunlimited⟩
  have hcarries := @simulates_statement c m.sink.written fuel _ _ _ tree hhosts m _ hmirrors
  unfold Stmt.evaluate
  generalize tree.exec fuel true { globals := m.globals } = result at hcarries
  match result, hcarries with
  | .ok _ s, ⟨n, m₁, hpath, hm₁⟩ =>
      dsimp only at hpath
      rw [Nat.zero_add] at hpath
      exact ⟨n, _, m₁, m₁, .finished, hpath, .stopped hret.lt_size (hret.step_ret m₁),
        hm₁.toAgrees, rfl⟩
  | .error (.fault f) s, ⟨n, ip, m₁, m₂, line, hpath, hends, hagrees⟩ =>
      exact ⟨n, ip, m₁, m₂, _, hpath, hends, hagrees, rfl⟩
  | .error .outOfFuel s, ⟨n, ip, m₁, hn, hpath⟩ => exact ⟨n, ip, m₁, hn, hpath⟩

end Chunk

/-- Compilation preserves meaning. On every machine with an empty stack and a sink that
takes all output, a compiled chunk comes to an end if and only if evaluation of the
program's tree does, and then the globals, the output and the fault, if there is one, are
those of the evaluation. -/
theorem compiled_preserves_meaning {source : String} {c : Chunk} (hc : compile source = .ok c) :
    (∃ tree, ProgramTokens tree (Token.scan source)) ∧
    ∀ tree, ProgramTokens tree (Token.scan source) → ∀ (tracing : Bool) (m : Machine),
      m.stack.slots.size = Stack.capacity → m.stack.height = 0 → m.sink.limit = none →
      ((∃ fuel, (m.runChunk fuel tracing c).isSome) ↔
        ∃ fuel, (tree.evaluate fuel m.globals).isSome) ∧
      ∀ fuel m' failure log, m.runChunk fuel tracing c = some (m', failure, log) →
        ∀ fuel' fault s, tree.evaluate fuel' m.globals = some (fault, s) →
          m'.globals = s.globals ∧ m'.sink.written = m.sink.written ++ s.output ∧
            failure.map Failure.fault? = fault.map some := by
  obtain ⟨tree, htree, -⟩ := exists_tree_of_compile hc
  refine ⟨⟨tree, htree⟩, ?_⟩
  clear htree tree
  intro tree htree tracing m hslots hempty hunlimited
  have hadmissible := (compile_iff_admissible htree).mp ⟨c, hc⟩
  have hcarries := (encodes_of_compile htree hc).carries htree hadmissible hslots hempty hunlimited
  refine ⟨⟨?_, ?_⟩, ?_⟩
  · rintro ⟨fuel, hruns⟩
    refine ⟨fuel, ?_⟩
    have hcarried := hcarries fuel
    cases hresult : tree.evaluate fuel m.globals with
    | some result => rfl
    | none =>
        rw [hresult] at hcarried
        obtain ⟨n, ip, m₁, hn, hpath⟩ := hcarried
        rw [Machine.runChunk_of_path hpath tracing hn] at hruns
        cases hruns
  · rintro ⟨fuel, hevaluates⟩
    obtain ⟨⟨fault, s⟩, hresult⟩ := Option.isSome_iff_exists.mp hevaluates
    have hcarried := hcarries fuel
    rw [hresult] at hcarried
    obtain ⟨n, ip, m₁, m₂, outcome, hpath, hends, -, -⟩ := hcarried
    obtain ⟨log, hruns⟩ := Machine.runChunk_of_ends hpath hends tracing (Nat.lt_succ_self n)
    exact ⟨n + 1, by rw [hruns]; rfl⟩
  · intro fuel m' failure log hruns fuel' fault s hresult
    have hcarried := hcarries fuel'
    rw [hresult] at hcarried
    obtain ⟨n, ip, m₁, m₂, outcome, hpath, hends, hagrees, hfault⟩ := hcarried
    by_cases hfuel : n < fuel
    · obtain ⟨log', hsame⟩ := Machine.runChunk_of_ends hpath hends tracing hfuel
      rw [hsame] at hruns
      obtain ⟨rfl, rfl, -⟩ : _ ∧ _ ∧ _ := by simpa using hruns
      exact ⟨hagrees.globals, hagrees.written, hfault⟩
    · rw [Machine.runChunk_of_path hpath tracing (Nat.le_of_not_lt hfuel)] at hruns
      cases hruns

/-- A loop that changes a local until a global takes over. -/
theorem compiled_preserves_meaning_loop :
    ∃ c, compile "var g; { var a; while (a == g) { print a; a = true; } } print g or h;" = .ok c ∧
      (∃ tree, ProgramTokens tree
        (Token.scan "var g; { var a; while (a == g) { print a; a = true; } } print g or h;")) ∧
      ∀ tree, ProgramTokens tree
          (Token.scan "var g; { var a; while (a == g) { print a; a = true; } } print g or h;") →
        ∀ (tracing : Bool), ({} : Machine).stack.slots.size = Stack.capacity ∧
          ({} : Machine).stack.height = 0 ∧ ({} : Machine).sink.limit = none ∧
          ((∃ fuel, (({} : Machine).runChunk fuel tracing c).isSome) ↔
            ∃ fuel, (tree.evaluate fuel {}).isSome) ∧
          ∀ fuel m' failure log, ({} : Machine).runChunk fuel tracing c = some (m', failure, log) →
            ∀ fuel' fault s, tree.evaluate fuel' {} = some (fault, s) →
              m'.globals = s.globals ∧ m'.sink.written = s.output ∧
                failure.map Failure.fault? = fault.map some := by
  obtain ⟨c, hc⟩ := exists_of_isOk (show
    (compile "var g; { var a; while (a == g) { print a; a = true; } } print g or h;").isOk = true
    by decide +kernel)
  obtain ⟨hexists, hall⟩ := compiled_preserves_meaning hc
  refine ⟨c, hc, hexists, fun tree htree tracing => ?_⟩
  obtain ⟨hends, hagrees⟩ := hall tree htree tracing {} Stack.size_slots_empty rfl rfl
  refine ⟨Stack.size_slots_empty, rfl, rfl, hends,
    fun fuel m' failure log hruns fuel' fault s hresult => ?_⟩
  obtain ⟨hglobals, hwritten, hfault⟩ := hagrees fuel m' failure log hruns fuel' fault s hresult
  exact ⟨hglobals, by simpa using hwritten, hfault⟩

end StackScript
