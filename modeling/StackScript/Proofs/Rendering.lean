import StackScript.Proofs.Compiler.Program
import StackScript.Proofs.Grammar.Written

/-!
Operators group as their strength says. An expression that is written with the necessary
parentheses only and one that is written with parentheses around all its parts are compiled to
the code of one tree, as far as the compiler has room for what is open at once.
-/

namespace StackScript

open Tree

namespace Tree

/-- The program that prints the expression. -/
def Expr.printed (e : Expr) : Stmt := .seq (.print e) .skip

theorem Expr.pool_printed (e : Expr) : e.ungrouped.printed.pool = e.printed.pool := by
  simp only [printed, Stmt.pool, Stmt.constants, constants_ungrouped]

theorem Expr.program_printed (e : Expr) : e.ungrouped.printed.program = e.printed.program := by
  unfold Stmt.program
  rw [pool_printed]
  simp only [printed, Stmt.code, code_ungrouped]

/-- Groups leave no trace in a chunk. -/
theorem Expr.encodes_of_ungrouped_eq {e e' : Expr} {c : Chunk} (h : e.ungrouped = e'.ungrouped)
    (hc : c.Encodes e.printed) : c.Encodes e'.printed := by
  constructor
  · rw [hc.code, ← program_printed, h, program_printed]
  · rw [hc.constants, ← pool_printed, h, pool_printed]

theorem Expr.lexemes_ne_nil (e : Expr) (least : Nat) : e.lexemes least ≠ [] := by
  have hite {p : Prop} [Decidable p] {lexemes : List String} (h : lexemes ≠ []) :
      (if p then enclosed lexemes else lexemes) ≠ [] := by
    split
    · exact List.cons_ne_nil _ _
    · exact h
  cases e with
  | bool b => cases b <;> exact hite (List.cons_ne_nil _ _)
  | binary _ _ _ | and _ _ | or _ _ =>
      exact hite (List.append_ne_nil_of_right_ne_nil _ (List.cons_ne_nil _ _))
  | _ => exact hite (List.cons_ne_nil _ _)

/-- The lexemes of an expression between those that print it. -/
theorem Expr.programTokens_of_spell {e : Expr} (h : e.spellable = true) {ts : List Token}
    {semi last : Token} (hts : Spell ts ("print" :: e.lexemes Precedence.assignment.rank))
    (hsemi : semi.kind = .semicolon) (hlast : last.kind = .endOfFile) :
    ProgramTokens (e.enclosedAt Precedence.assignment.rank).printed (ts ++ [semi, last]) := by
  obtain ⟨p, us, rfl, hp, -, hus⟩ := hts.of_cons
  have hexpr := e.exprTokens_of_spell h (by decide) hus
  have hstatement : DeclTokens (e.enclosedAt Precedence.assignment.rank).printed
      (p :: us ++ [semi] ++ []) := .statement (.print hp hexpr hsemi) .skip
  rw [List.append_nil] at hstatement
  exact ⟨p :: us ++ [semi], last, hstatement, hlast, by simp⟩

/-- The tokens of a text that prints what an expression is written as. -/
theorem Expr.programTokens_of_spellable {e : Expr} (h : e.spellable = true) :
    ProgramTokens (e.enclosedAt Precedence.assignment.rank).printed
      (Token.scan ("print " ++ e.text ++ ";")) := by
  have htext : "print " ++ e.text =
      " ".intercalate ("print" :: e.lexemes Precedence.assignment.rank) := by
    rw [String.intercalate_cons_of_ne_nil (e.lexemes_ne_nil _), Expr.text]
    rfl
  have hprint : isLexeme "print" = true := by decide
  obtain ⟨ts, semi, last, hscan, hts, hsemi, hlast⟩ := Token.scan_statement
    (List.forall_mem_cons.mpr ⟨hprint, e.isLexeme_of_mem h Precedence.assignment.rank⟩)
  rw [htext, hscan]
  exact programTokens_of_spell h hts hsemi hlast

end Tree

/-- The text of an expression with the necessary parentheses only and the text with parentheses
around all its parts are compiled exactly if the trees they spell are admissible, and then to the
code and the constants of the expression. -/
theorem compile_rendering {e : Expr} (h : e.spellable = true) :
    ((∃ c, compile ("print " ++ e.text ++ ";") = .ok c) ↔
        (e.enclosedAt Precedence.assignment.rank).printed.admissible = true) ∧
      ((∃ c, compile ("print " ++ e.fullText ++ ";") = .ok c) ↔
        e.enclosedFully.printed.admissible = true) ∧
      (∀ c, compile ("print " ++ e.text ++ ";") = .ok c → c.Encodes e.printed) ∧
      (∀ c, compile ("print " ++ e.fullText ++ ";") = .ok c → c.Encodes e.printed) ∧
      ∀ c c', compile ("print " ++ e.text ++ ";") = .ok c →
        compile ("print " ++ e.fullText ++ ";") = .ok c' →
        c.code = c'.code ∧ c.constants = c'.constants := by
  have hfull : e.enclosedFully.text = e.fullText := by
    unfold Expr.text Expr.fullText
    rw [Expr.lexemes_enclosedFully (by decide)]
  have hspellable : e.enclosedFully.spellable = true := by
    rw [← Expr.spellable_ungrouped, Expr.ungrouped_enclosedFully, Expr.spellable_ungrouped, h]
  have htokens := Expr.programTokens_of_spellable h
  have htokensFull := Expr.programTokens_of_spellable hspellable
  rw [hfull, Expr.enclosedAt_enclosedFully (by decide)] at htokensFull
  have hleast (c : Chunk) (hc : compile ("print " ++ e.text ++ ";") = .ok c) :
      c.Encodes e.printed :=
    Expr.encodes_of_ungrouped_eq (e.ungrouped_enclosedAt _) (encodes_of_compile htokens hc)
  have hmost (c : Chunk) (hc : compile ("print " ++ e.fullText ++ ";") = .ok c) :
      c.Encodes e.printed :=
    Expr.encodes_of_ungrouped_eq e.ungrouped_enclosedFully (encodes_of_compile htokensFull hc)
  refine ⟨compile_iff_admissible htokens, compile_iff_admissible htokensFull, hleast, hmost, ?_⟩
  intro c c' hc hc'
  have hsame := hleast c hc
  have hsame' := hmost c' hc'
  exact ⟨Array.toList_inj.mp (hsame.code.trans hsame'.code.symm),
    Array.toList_inj.mp (hsame.constants.trans hsame'.constants.symm)⟩

/-- Of differences the right operand needs parentheses, of alternatives the left one. -/
theorem compile_rendering_nested :
    ∃ c c',
      compile "print a = b - c - ( d - b ) < - a and ( ( c or d ) or nil or ! \"s\" );" = .ok c ∧
      compile ("print ( a = ( ( ( ( ( b ) - ( c ) ) - ( ( d ) - ( b ) ) ) < ( - ( a ) ) ) and " ++
        "( ( ( c ) or ( d ) ) or ( ( nil ) or ( ! ( \"s\" ) ) ) ) ) );") = .ok c' ∧
      c.code = c'.code ∧ c.constants = c'.constants := by
  have h := @compile_rendering
    (.assign "a" (.and
      (.binary .less
        (.binary .subtract (.binary .subtract (.name "b") (.name "c"))
          (.binary .subtract (.name "d") (.name "b")))
        (.unary .negate (.name "a")))
      (.or (.or (.name "c") (.name "d")) (.or .nil (.unary .not (.string "s"))))))
    (by decide)
  obtain ⟨hleast, hfull, -, -, hsame⟩ := h
  obtain ⟨c, hc⟩ := hleast.mpr (by decide +kernel)
  obtain ⟨c', hc'⟩ := hfull.mpr (by decide +kernel)
  exact ⟨c, c', (congrArg compile (by decide +kernel)).trans hc,
    (congrArg compile (by decide +kernel)).trans hc', hsame c c' hc hc'⟩

end StackScript
