import StackScript.Proofs.Lockstep.Basic
import StackScript.Proofs.Token.Lines
import StackScript.Proofs.Token.Tiles

/-!
The order of lines. Code is written for the line of the token read last, and tokens are read in
the order of the text. So the lines of the code, those of the two tokens at hand and those of
the tokens to come stand in one sequence that never decreases, whatever is read or written.
-/

namespace StackScript

/-- Lines of a text with `last` lines, in the order of the text. -/
structure Lineup (last : Nat) (lines : List Nat) : Prop where
  ordered : lines.Pairwise (· ≤ ·)
  within : ∀ line ∈ lines, 1 ≤ line ∧ line ≤ last

namespace Lineup

variable {last line : Nat} {lines lines' front back : List Nat}

theorem sublist (h : Lineup last lines) (hsub : lines'.Sublist lines) : Lineup last lines' :=
  ⟨h.ordered.sublist hsub, fun line hline => h.within line (hsub.subset hline)⟩

/-- A line may follow itself. -/
theorem twice (h : Lineup last (front ++ line :: back)) :
    Lineup last (front ++ line :: line :: back) := by
  obtain ⟨hordered, hwithin⟩ := h
  obtain ⟨hfront, hback, hacross⟩ := List.pairwise_append.mp hordered
  refine ⟨List.pairwise_append.mpr ⟨hfront, List.pairwise_cons.mpr ⟨?_, hback⟩, ?_⟩, ?_⟩
  · intro other hother
    obtain rfl | hother := List.mem_cons.mp hother
    · exact Nat.le_refl _
    · exact (List.pairwise_cons.mp hback).1 other hother
  · intro first hfirst other hother
    obtain rfl | hother := List.mem_cons.mp hother
    · exact hacross first hfirst _ List.mem_cons_self
    · exact hacross first hfirst other hother
  · intro other hother
    apply hwithin
    simpa using hother

end Lineup

namespace Builder

/-- The lines of the code written so far, of the tokens at hand and of those to come. -/
def timeline (b : Builder) : List Nat :=
  b.chunk.lines.toList ++ b.previous.line :: b.current.line :: b.unread.map Token.line

variable {last : Nat} {b b' : Builder}

theorem timeline_report (b : Builder) (t : Token) (cause : Diagnostic.Cause) :
    (b.report t cause).timeline = b.timeline := by
  unfold report
  split <;> rfl

/-- Tokens that are passed over, or taken up, leave the order. -/
theorem lineup_load {unread : List Token}
    (h : Lineup last ({ b with unread } : Builder).timeline) :
    Lineup last (load unread b).timeline := by
  induction unread generalizing b with
  | nil => exact h
  | cons t rest ih =>
      unfold load
      split
      · rename_i reason _
        apply ih
        have hreport : ({ b.report t (.lexical reason) with unread := rest } : Builder).timeline =
            ({ b with unread := rest } : Builder).timeline := by
          unfold report
          split <;> rfl
        rw [hreport]
        exact h.sublist (by simp [timeline])
      · exact h.sublist (by simp [timeline])

theorem lineup_advance (h : Lineup last b.timeline) : Lineup last b.advance.timeline := by
  apply lineup_load
  have hcurrent : Lineup last (b.chunk.lines.toList ++ b.current.line :: b.unread.map Token.line) :=
    h.sublist (by simp [timeline])
  exact hcurrent.twice

theorem lineup_emitByte (h : Lineup last b.timeline) (byte : UInt8) :
    Lineup last (b.emitByte byte).timeline := by
  have hwritten : (b.emitByte byte).timeline = b.chunk.lines.toList ++
      b.previous.line :: b.previous.line :: b.current.line :: b.unread.map Token.line := by
    simp [timeline, emitByte, Chunk.write]
  rw [hwritten]
  exact h.twice

theorem persists_lineup (last : Nat) : Persists fun b => Lineup last b.timeline where
  advance := lineup_advance
  report t cause h := by rwa [timeline_report]
  recover := id
  emitByte byte h := lineup_emitByte h byte
  constants _ := id
  code _ := id
  locals _ := id
  scopeDepth _ := id
  nesting _ := id

end Builder

/-- The tokens of a text stand on its lines. -/
theorem Token.line_within {source : String} {t : Token} (ht : t ∈ Token.scan source) :
    1 ≤ t.line ∧ t.line ≤ 1 + source.toList.count '\n' := by
  obtain ⟨first, second, htext, -, hline, -⟩ := (Token.tiles_scan source).exists_piece ht
  rw [List.nil_append] at htext
  have hcount : (first ++ t.lexeme.toList).count '\n' ≤ source.toList.count '\n' := by
    rw [htext]
    exact (List.sublist_append_left _ _).count_le _
  omega

/-- The lines of the code that a text is compiled to. -/
theorem Builder.lineup_program (source : String) :
    Lineup (1 + source.toList.count '\n') (program (Token.scan source)).chunk.lines.toList := by
  have htokens : Lineup (1 + source.toList.count '\n')
      ([] ++ 1 :: (Token.scan source).map Token.line) := by
    constructor
    · apply List.pairwise_cons.mpr
      constructor
      · intro line hline
        obtain ⟨t, ht, rfl⟩ := List.mem_map.mp hline
        exact (Token.line_within ht).1
      · exact List.pairwise_map.mpr (Token.lines_scan source)
    · intro line hline
      obtain rfl | hline := List.mem_cons.mp hline
      · exact ⟨Nat.le_refl _, Nat.le_add_right _ _⟩
      · obtain ⟨t, ht, rfl⟩ := List.mem_map.mp hline
        exact Token.line_within ht
  have hprogram := (persists_lineup _).closed.program (Token.scan source) htokens.twice
  exact hprogram.sublist (List.sublist_append_left _ _)

end StackScript
