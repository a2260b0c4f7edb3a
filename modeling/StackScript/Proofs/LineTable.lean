import StackScript.Proofs.Builder.Timeline
import StackScript.Proofs.Compiler.Joined
import StackScript.Proofs.Code.Fetching

/-!
The line table of compiled code. Its lines are in the order of the code, and the bytes of one
instruction have one line. A run that fails has read some bytes of the failing instruction and
asks for the line of the last one, so the line it reports is that of the opcode.
-/

namespace StackScript

open Tree

/-- The lines of the code of a text with `last` lines. -/
structure Chunk.Tabled (c : Chunk) (last : Nat) : Prop where
  size : c.lines.size = c.code.size
  lineup : Lineup last c.lines.toList
  covers : c.Boundary c.size
  shared : ∀ offset, c.Boundary offset → offset < c.size → ∃ op line, c.opAt? offset = some op ∧
    offset + 1 + op.operandBytes ≤ c.size ∧
      ∀ i ≤ op.operandBytes, c.lines[offset + i]? = some line

/-- An instruction that fails does so on the line of the last byte that was read. -/
theorem Machine.line_of_step {c : Chunk} {ip : Nat} {m m' : Machine} {e : RuntimeError}
    (hstep : m.step c ip = .error (.failed e) m') : e.line = c.lineBefore (c.fetch ip).next := by
  unfold Machine.step at hstep
  dsimp only at hstep
  split at hstep
  · cases hstep
    rfl
  · split at hstep
    · cases hstep
    · rename_i stop _ _
      cases stop with
      | fault f =>
          cases hstep
          rfl
      | returned | outputClosed | outOfRange => cases hstep

namespace Chunk

variable {c : Chunk} {last : Nat}

/-- Behind an instruction the line of its opcode is found. -/
theorem Tabled.lineBefore_next (h : c.Tabled last) {offset : Nat} (hboundary : c.Boundary offset)
    (hlt : offset < c.size) : ∃ line, c.lines[offset]? = some line ∧
      c.lineBefore (c.fetch offset).next = line := by
  obtain ⟨op, line, hop, hcomplete, hlines⟩ := h.shared offset hboundary hlt
  have hfirst : c.lines[offset]? = some line := hlines 0 (Nat.zero_le _)
  have hnext : (c.fetch offset).next = offset + op.operandBytes + 1 := by
    rw [next_fetch hop hcomplete, Nat.add_right_comm]
  refine ⟨line, hfirst, ?_⟩
  unfold lineBefore
  rw [hnext, if_neg (Nat.succ_ne_zero _), Nat.add_sub_cancel, hlines _ (Nat.le_refl _)]
  rfl

/-- Code that has been written instruction by instruction has a line for each of them. -/
theorem Follows.shared {sites : List Site} (h : c.Follows sites)
    (hwrote : ({} : Chunk).Wrote (itemsOf sites ++ [.plain .ret]) c) {offset : Nat}
    (hboundary : c.Boundary offset) (hlt : offset < c.size) :
    ∃ op line, c.opAt? offset = some op ∧ offset + 1 + op.operandBytes ≤ c.size ∧
      ∀ i ≤ op.operandBytes, c.lines[offset + i]? = some line := by
  obtain ⟨before, item, behind, hsplit, rfl⟩ :=
    exists_item_of_boundary h.code h.shaped hboundary hlt
  have hhas : c.Has (codeSize before) (item :: behind) := has_of_split h.code hsplit
  have hshaped : item.size = 1 + item.op.operandBytes := h.shaped item (by simp [hsplit])
  rw [hsplit] at hwrote
  obtain ⟨line, hlines⟩ := hwrote.exists_line
  obtain ⟨op, hop, hcomplete⟩ := h.wellFormed.complete _ hboundary hlt
  obtain rfl := Option.some.inj (hhas.opAt?.symm.trans hop)
  refine ⟨item.op, line, hop, hcomplete, ?_⟩
  intro i hi
  apply hlines
  omega

end Chunk

/-- A compiled chunk has a line for every byte of its code. The lines never decrease, they are
lines of the text, and an instruction has one line for all of its bytes. A run that fails,
whatever machine it started from, reports the line of the opcode it failed at, which it finds
at the last byte that it has read. -/
theorem compiled_lineTable {source : String} {c : Chunk} (hc : compile source = .ok c) :
    c.Tabled (1 + source.toList.count '\n') ∧
      ∀ (tracing : Bool) (m : Machine) (n : Nat) (e : RuntimeError),
        let r := (Run.start c tracing m).advance n
        r.outcome = some (.failed e) → c.Boundary r.ip ∧ r.ip < c.size ∧
          e.line = c.lineBefore (c.fetch r.ip).next ∧ c.lines[r.ip]? = some e.line := by
  obtain ⟨tree, htree, hadmissible, hencodes⟩ := exists_tree_of_compile hc
  obtain ⟨sites, hfollows, hitems, -⟩ := hencodes.exists_follows htree hadmissible
  have hwrote : ({} : Chunk).Wrote (itemsOf sites ++ [.plain .ret]) c := by
    rw [hitems]
    exact wrote_of_compile htree hc
  have htabled : c.Tabled (1 + source.toList.count '\n') := by
    refine ⟨Chunk.size_lines_of_compile hc, ?_, hfollows.wellFormed.covers, ?_⟩
    · obtain ⟨-, rfl⟩ := compile_eq_ok_iff.mp hc
      exact Builder.lineup_program source
    · intro offset hboundary hlt
      exact hfollows.shared hwrote hboundary hlt
  refine ⟨htabled, ?_⟩
  intro tracing m n e r hfailed
  obtain ⟨hnone, -⟩ | ⟨outcome, k, m', hsome, -, hpath, hends⟩ :=
    Run.path_of_go (c := c) tracing n 0 m #[]
  · cases hnone.symm.trans hfailed
  · obtain rfl := Option.some.inj (hsome.symm.trans hfailed)
    obtain ⟨hfinished, -⟩ | ⟨-, before, site, behind, hsplit, hip, hstep⟩ :=
      hfollows.ends hends (hfollows.reaches_of_path hpath)
    · cases hfinished
    · have hboundary : c.Boundary r.ip := hip ▸ hfollows.boundary hsplit
      have hlt : r.ip < c.size := hip ▸ hfollows.lt_size hsplit
      have hline : e.line = c.lineBefore (c.fetch r.ip).next := Machine.line_of_step hstep
      obtain ⟨line, hopcode, hlast⟩ := htabled.lineBefore_next hboundary hlt
      refine ⟨hboundary, hlt, hline, ?_⟩
      rw [hopcode, hline, hlast]

/-- A variable that is missing is reported on the third line, where its name stands. -/
theorem compiled_lineTable_missing : ∃ c, compile "print nil;\nprint\nx;" = .ok c ∧ c.Tabled 3 ∧
    let r := (Run.start c false {}).advance 4
    r.outcome = some (.failed ⟨.undefinedVariable "x", 3⟩) ∧ c.Boundary r.ip ∧ r.ip < c.size ∧
      c.lineBefore (c.fetch r.ip).next = 3 ∧ c.lines[r.ip]? = some 3 := by
  obtain ⟨c, hc⟩ := exists_of_isOk
    (show (compile "print nil;\nprint\nx;").isOk = true by decide +kernel)
  have hruns : ((compile "print nil;\nprint\nx;").toOption.bind fun c =>
      ((Run.start c false {}).advance 4).outcome) = some (.failed ⟨.undefinedVariable "x", 3⟩) := by
    decide +kernel
  have hlast : 1 + "print nil;\nprint\nx;".toList.count '\n' = 3 := by decide
  rw [hc] at hruns
  obtain ⟨htabled, hfails⟩ := compiled_lineTable hc
  obtain ⟨hboundary, hlt, hread, hopcode⟩ := hfails false {} 4 _ hruns
  exact ⟨c, hc, hlast ▸ htabled, hruns, hboundary, hlt, hread.symm, hopcode⟩

end StackScript
