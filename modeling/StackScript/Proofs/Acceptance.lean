import StackScript.Proofs.Compiler.Program
import StackScript.Proofs.Lockstep.Placeless

/-!
Which texts are compiled: exactly those whose tokens spell a program of the grammar that declares
and reads its locals properly and keeps to every limit. Layout is free: blanks, line ends and
comments between the tokens of a text decide on which lines its code and its mistakes are, and on
nothing else.
-/

namespace StackScript

open Tree

/-- A text is compiled if and only if no token of it is a fault and its tokens spell a
program in which no scope declares a local twice, no local is mentioned in its own
initializer, and the levels, the locals, the constants and the jumps keep to their limits. -/
theorem compile_accepts_iff (source : String) :
    (∃ c, compile source = .ok c) ↔
      (∀ t ∈ Token.scan source, t.Sound) ∧
        ∃ tree, ProgramTokens tree (Token.scan source) ∧ tree.wellScoped true [] = true ∧
          tree.levels ≤ Builder.nestingMax ∧ tree.mostLocals true 0 ≤ Builder.localsMax ∧
          tree.pool.length ≤ Chunk.constantsMax ∧
          ∀ op distance, Item.jump op distance ∈ tree.code tree.pool true [] →
            distance ≤ Builder.distanceMax := by
  constructor
  · rintro ⟨c, hc⟩
    obtain ⟨tree, htree, hadmissible, -⟩ := exists_tree_of_compile hc
    exact ⟨htree.sound, tree, htree, Stmt.admissible_iff.mp hadmissible⟩
  · rintro ⟨-, tree, htree, hlimits⟩
    exact (compile_iff_admissible htree).mpr (Stmt.admissible_iff.mpr hlimits)

/-- Tokens with the same kinds and the same texts, wherever they stand. -/
theorem Token.map_placeless_eq {tokens tokens' : List Token}
    (h : tokens.map (fun t => (t.kind, t.lexeme)) = tokens'.map (fun t => (t.kind, t.lexeme))) :
    tokens.map Token.placeless = tokens'.map Token.placeless := by
  have hmap (tokens : List Token) : tokens.map Token.placeless =
      (tokens.map fun t => (t.kind, t.lexeme)).map fun (kind, lexeme) =>
        (⟨kind, Token.origin.start, lexeme, Token.origin.line⟩ : Token) := by
    rw [List.map_map]
    rfl
  rw [hmap, hmap, h]

/-- Diagnostics that differ only in their lines. -/
theorem Diagnostic.map_placeless_eq {errors errors' : Array Diagnostic}
    (h : errors.map Diagnostic.placeless = errors'.map Diagnostic.placeless) :
    errors.map (fun d => (d.cause, d.location)) = errors'.map (fun d => (d.cause, d.location)) := by
  have hmap (errors : Array Diagnostic) : errors.map (fun d => (d.cause, d.location)) =
      (errors.map Diagnostic.placeless).map fun d => (d.cause, d.location) := by
    rw [Array.map_map]
    rfl
  rw [hmap errors, hmap errors', h]

/-- Two texts whose tokens, the faults and the end marker among them, have one by one the same
kind and the same text are compiled both or neither. The chunks have the same code and the same
constants; the diagnostics are as many, with the same causes and locations one by one. -/
theorem compile_ignores_layout {source source' : String}
    (h : (Token.scan source).map (fun t => (t.kind, t.lexeme)) =
      (Token.scan source').map (fun t => (t.kind, t.lexeme))) :
    (∃ c c', compile source = .ok c ∧ compile source' = .ok c' ∧
        c.code = c'.code ∧ c.constants = c'.constants) ∨
      ∃ errors errors', compile source = .error errors ∧ compile source' = .error errors' ∧
        errors.map (fun d => (d.cause, d.location)) =
          errors'.map (fun d => (d.cause, d.location)) := by
  have hprogram : (Builder.program (Token.scan source)).placeless =
      (Builder.program (Token.scan source')).placeless := by
    rw [← Builder.program_placeless, ← Builder.program_placeless, Token.map_placeless_eq h]
  have herrors : (Builder.program (Token.scan source)).errors.map Diagnostic.placeless =
      (Builder.program (Token.scan source')).errors.map Diagnostic.placeless :=
    congrArg Builder.errors hprogram
  have hsoiled : (Builder.program (Token.scan source)).Soiled ↔
      (Builder.program (Token.scan source')).Soiled := by
    have hempty := congrArg (· = #[]) herrors
    refine not_congr ?_
    simpa only [Array.map_eq_empty_iff, eq_iff_iff] using hempty
  by_cases hclean : (Builder.program (Token.scan source)).Soiled
  · refine Or.inr ⟨_, _, compile_eq_error_iff.mpr ⟨hclean, rfl⟩,
      compile_eq_error_iff.mpr ⟨hsoiled.mp hclean, rfl⟩, Diagnostic.map_placeless_eq herrors⟩
  · refine Or.inl ⟨_, _, compile_eq_ok_iff.mpr ⟨hclean, rfl⟩,
      compile_eq_ok_iff.mpr ⟨mt hsoiled.mpr hclean, rfl⟩, ?_, ?_⟩
    · exact congrArg (·.chunk.code) hprogram
    · exact congrArg (·.chunk.constants) hprogram

/-- The same mistakes on one line and on many, among them a character that is no token. -/
theorem compile_ignores_layout_spread :
    (Token.scan "var a=1 # print(a;").map (fun t => (t.kind, t.lexeme)) =
        (Token.scan "var a // = 0\n = 1\n\n#\tprint\n  ( a ;\r\n// )").map
          (fun t => (t.kind, t.lexeme)) ∧
      ((∃ c c', compile "var a=1 # print(a;" = .ok c ∧
          compile "var a // = 0\n = 1\n\n#\tprint\n  ( a ;\r\n// )" = .ok c' ∧
          c.code = c'.code ∧ c.constants = c'.constants) ∨
        ∃ errors errors', compile "var a=1 # print(a;" = .error errors ∧
          compile "var a // = 0\n = 1\n\n#\tprint\n  ( a ;\r\n// )" = .error errors' ∧
          errors.map (fun d => (d.cause, d.location)) =
            errors'.map (fun d => (d.cause, d.location))) := by
  have hsame : (Token.scan "var a=1 # print(a;").map (fun t => (t.kind, t.lexeme)) =
      (Token.scan "var a // = 0\n = 1\n\n#\tprint\n  ( a ;\r\n// )").map
        (fun t => (t.kind, t.lexeme)) := by decide +kernel
  exact ⟨hsame, compile_ignores_layout hsame⟩

end StackScript
