import Mathlib.Tactic.Common
import StackScript.Token.Scan

/-!
Lines in a scanned text: the scanner never moves back, so the lines of its tokens never
decrease.
-/

namespace StackScript

namespace Cursor

theorem line_le_skip (inComment : Bool) (offset line : Nat) (chars : List Char) :
    line ≤ (skip inComment offset line chars).line := by
  induction chars generalizing inComment offset line with
  | nil => exact Nat.le_refl line
  | cons c rest ih =>
      have hafter : line ≤ if c = '\n' then line + 1 else line := by
        split <;> omega
      unfold skip
      dsimp only
      split
      · exact Nat.le_trans hafter (ih ..)
      · split
        · exact Nat.le_trans hafter (ih ..)
        · split
          · exact Nat.le_trans hafter (ih ..)
          · exact Nat.le_refl line

theorem line_le_next (cursor : Cursor) : cursor.line ≤ cursor.next.1.line := by
  have hskip := line_le_skip false cursor.offset cursor.line cursor.rest
  unfold next
  generalize skip false cursor.offset cursor.line cursor.rest = here at hskip ⊢
  obtain ⟨chars, offset, line⟩ := here
  cases chars with
  | nil => exact hskip
  | cons c rest => exact Nat.le_trans hskip (Nat.le_add_right _ _)

/-- A token ends on the line on which its successor is looked for. -/
theorem line_next (cursor : Cursor) : cursor.next.2.line = cursor.next.1.line := by
  unfold next
  dsimp only
  split <;> rfl

theorem lines_tokensFrom (cursor : Cursor) (seen : Array Token) :
    ∃ tokens, (cursor.tokensFrom seen).toList = seen.toList ++ tokens ∧
      (∀ t ∈ tokens, cursor.line ≤ t.line) ∧ tokens.Pairwise fun t u => t.line ≤ u.line := by
  fun_induction tokensFrom cursor seen with
  | case1 cursor seen _ =>
      exact ⟨[cursor.next.1], by simp, by simpa using cursor.line_le_next,
        List.pairwise_singleton _ _⟩
  | case2 cursor seen _ ih =>
      obtain ⟨tokens, hall, hfrom, hordered⟩ := ih
      rw [line_next] at hfrom
      refine ⟨cursor.next.1 :: tokens, by simp [hall], ?_, List.pairwise_cons.mpr ⟨hfrom, hordered⟩⟩
      intro t ht
      obtain rfl | ht := List.mem_cons.mp ht
      · exact cursor.line_le_next
      · exact Nat.le_trans cursor.line_le_next (hfrom t ht)

end Cursor

theorem Token.lines_scan (source : String) :
    (Token.scan source).Pairwise fun t u => t.line ≤ u.line := by
  obtain ⟨tokens, hall, -, hordered⟩ := (Cursor.start source).lines_tokensFrom #[]
  rwa [Token.scan, hall]

end StackScript
