import Mathlib.Tactic.Common
import StackScript.Shell.Command

/-!
The lines of an input and the texts they hold. A line ends with its newline, and only the last one
may lack it; lines are read as texts up to the first that is none.
-/

namespace StackScript.Shell

/-- These are the lines of the input. -/
inductive Lines : List UInt8 → List (Array UInt8) → Prop
  | nil : Lines [] []
  | last {line : List UInt8} (hsome : line ≠ []) (hplain : 10 ∉ line) : Lines line [line.toArray]
  | cons {line rest : List UInt8} {lines : List (Array UInt8)} (hplain : 10 ∉ line)
      (hrest : Lines rest lines) : Lines (line ++ 10 :: rest) ((line ++ [10]).toArray :: lines)

/-- These are the texts that the lines hold, up to the end or up to a line that stops the reading
because it is no text. -/
inductive Reads : List (Array UInt8) → List String → Bool → Prop
  | done : Reads [] [] false
  | stopped {line : Array UInt8} {rest : List (Array UInt8)} (hline : decode line = none) :
      Reads (line :: rest) [] true
  | text {line : Array UInt8} {rest : List (Array UInt8)} {source : String} {sources : List String}
      {stopped : Bool} (hline : decode line = some source) (hrest : Reads rest sources stopped) :
      Reads (line :: rest) (source :: sources) stopped

/-- An input falls into lines from any place in a line on. -/
theorem exists_lines (bytes : List UInt8) {line : List UInt8} (hplain : 10 ∉ line) :
    ∃ lines, Lines (line ++ bytes) lines := by
  induction bytes generalizing line with
  | nil =>
      rw [List.append_nil]
      by_cases hempty : line = []
      · exact ⟨[], hempty ▸ .nil⟩
      · exact ⟨[line.toArray], .last hempty hplain⟩
  | cons byte rest ih =>
      by_cases hnewline : byte = 10
      · subst hnewline
        obtain ⟨lines, hlines⟩ := ih List.not_mem_nil
        exact ⟨_, .cons hplain hlines⟩
      · have hlonger : 10 ∉ line ++ [byte] := by simp [hplain, Ne.symm hnewline]
        obtain ⟨lines, hlines⟩ := ih hlonger
        rw [List.append_assoc] at hlines
        exact ⟨lines, hlines⟩

end StackScript.Shell
