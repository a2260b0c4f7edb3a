import Mathlib.Data.List.Induction
import StackScript.Proofs.Code.Placement

/-!
Instruction boundaries. The bytes of a chunk are cut into instructions from offset 0 on,
each as long as its opcode says; an offset is a boundary if the cutting arrives there.
-/

namespace StackScript

open Tree

/-- The offsets at which complete instructions before them end. -/
inductive Chunk.Boundary (c : Chunk) : Nat → Prop
  | start : c.Boundary 0
  | next {offset : Nat} {op : Opcode} (h : c.Boundary offset) (hop : c.opAt? offset = some op)
      (hcomplete : offset + 1 + op.operandBytes ≤ c.size) :
      c.Boundary (offset + 1 + op.operandBytes)

namespace Chunk

variable {c : Chunk} {items : List Item}

theorem has_of_split (hcode : c.code.toList = bytesOf items) {before behind : List Item}
    (hsplit : items = before ++ behind) : c.Has (codeSize before) behind := by
  have hall : c.Has 0 (before ++ behind) := by
    rw [← hsplit, Has, hcode]
    exact List.prefix_rfl
  have hbehind := (has_append.mp hall).2
  rwa [Nat.zero_add] at hbehind

theorem size_of_code (hcode : c.code.toList = bytesOf items) : c.size = codeSize items := by
  have hlength := congrArg List.length hcode
  simpa [Chunk.size] using hlength

/-- The boundaries of code that has been put together from instructions are where these
meet. -/
theorem boundary_iff (hcode : c.code.toList = bytesOf items)
    (hshaped : ∀ item ∈ items, item.Shaped) {offset : Nat} :
    c.Boundary offset ↔ ∃ before behind, items = before ++ behind ∧ offset = codeSize before := by
  constructor
  · intro h
    induction h with
    | start => exact ⟨[], items, rfl, rfl⟩
    | @next offset op _ hop _ ih =>
        obtain ⟨before, behind, hsplit, rfl⟩ := ih
        have hhas := has_of_split hcode hsplit
        cases behind with
        | nil =>
            have hend : codeSize before = c.size := by
              rw [size_of_code hcode, hsplit, List.append_nil]
            have hnone : c.code[codeSize before]? = none :=
              Array.getElem?_eq_none (Nat.le_of_eq hend.symm)
            rw [Chunk.opAt?, hnone] at hop
            cases hop
        | cons item rest =>
            have hitem : item.op = op := Option.some.inj (hhas.opAt?.symm.trans hop)
            have hsize : item.size = 1 + item.op.operandBytes :=
              hshaped item (by simp [hsplit])
            refine ⟨before ++ [item], rest, by rw [hsplit, List.append_assoc]; rfl, ?_⟩
            rw [codeSize_append, codeSize_cons, codeSize_nil, hsize, hitem]
            omega
  · rintro ⟨before, behind, hsplit, rfl⟩
    induction before using List.reverseRecOn generalizing behind with
    | nil => exact .start
    | append_singleton before item ih =>
        rw [List.append_assoc] at hsplit
        have hhas := has_of_split hcode hsplit
        have hsize : item.size = 1 + item.op.operandBytes :=
          hshaped item (by simp [hsplit])
        have hend : codeSize (before ++ [item]) = codeSize before + 1 + item.op.operandBytes := by
          rw [codeSize_append, codeSize_cons, codeSize_nil, hsize]
          omega
        rw [hend]
        refine .next (ih _ hsplit) hhas.opAt? ?_
        rw [← hend, size_of_code hcode, hsplit]
        simp only [codeSize_append, List.singleton_append, codeSize_cons, codeSize_nil]
        omega

/-- At a boundary before the end stands one of the instructions. -/
theorem exists_item_of_boundary (hcode : c.code.toList = bytesOf items)
    (hshaped : ∀ item ∈ items, item.Shaped) {offset : Nat} (h : c.Boundary offset)
    (hlt : offset < c.size) :
    ∃ before item behind, items = before ++ item :: behind ∧ offset = codeSize before := by
  obtain ⟨before, behind, hsplit, rfl⟩ := (boundary_iff hcode hshaped).mp h
  cases behind with
  | nil =>
      rw [size_of_code hcode, hsplit, List.append_nil] at hlt
      exact absurd hlt (Nat.lt_irrefl _)
  | cons item behind => exact ⟨before, item, behind, hsplit, rfl⟩

/-- Code that is cut into complete instructions of which only the last one returns, whose
operands stand for constants of the right kind and whose jumps lead to boundaries. -/
structure WellFormed (c : Chunk) : Prop where
  covers : c.Boundary c.size
  returns : ∃ last, c.Boundary last ∧ last + 1 = c.size ∧ c.opAt? last = some .ret
  returnsOnce : ∀ offset, c.Boundary offset → c.opAt? offset = some .ret → offset + 1 = c.size
  complete : ∀ offset, c.Boundary offset → offset < c.size →
    ∃ op, c.opAt? offset = some op ∧ offset + 1 + op.operandBytes ≤ c.size
  constants : ∀ offset op, c.Boundary offset → c.opAt? offset = some op →
    op ∈ [.constant, .getGlobal, .defineGlobal, .setGlobal] →
    ∃ index v, c.code[offset + 1]? = some index ∧ c.constants[index.toNat]? = some v ∧
      (op ≠ .constant → ∃ name, v = .string name)
  forward : ∀ offset op, c.Boundary offset → c.opAt? offset = some op →
    op ∈ [.jump, .jumpIfFalse] → ∃ distance, c.wordAt? (offset + 1) = some distance ∧
      c.Boundary (offset + 3 + distance) ∧ offset + 3 + distance < c.size
  backward : ∀ offset, c.Boundary offset → c.opAt? offset = some .loop →
    ∃ distance, c.wordAt? (offset + 1) = some distance ∧ distance ≤ offset + 3 ∧
      c.Boundary (offset + 3 - distance) ∧ offset + 3 - distance ≤ offset

end Chunk

end StackScript
