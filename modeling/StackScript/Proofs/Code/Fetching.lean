import Mathlib.Tactic.Common
import StackScript.Instruction

/-!
How far fetching reads. Where all bytes of an instruction are there, exactly these are read,
whatever comes of them.
-/

namespace StackScript

namespace Chunk

variable {c : Chunk} {offset : Nat}

theorem lt_size_of_opAt? {op : Opcode} (hop : c.opAt? offset = some op) : offset < c.size := by
  by_contra hge
  have hnone : c.code[offset]? = none := Array.getElem?_eq_none (Nat.le_of_not_lt hge)
  rw [Chunk.opAt?, hnone] at hop
  cases hop

theorem fetch_of_opAt? {op : Opcode} (hop : c.opAt? offset = some op) :
    c.fetch offset = c.fetchOperands (offset + 1) op := by
  obtain ⟨byte, hbyte, hop⟩ := Option.bind_eq_some_iff.mp hop
  unfold fetch
  simp only [hbyte, hop]

theorem next_fetchByte (h : offset < c.size) (make : UInt8 → Except Fault Instruction) :
    (c.fetchByte offset make).next = offset + 1 := by
  unfold fetchByte
  rw [Array.getElem?_eq_getElem h]

theorem wordAt?_of_lt_size (h : offset + 1 < c.size) :
    ∃ distance, c.wordAt? offset = some distance ∧
    ∀ make : Nat → Instruction, c.fetchWord offset make = ⟨offset + 2, .ok (make distance)⟩ := by
  obtain ⟨high, hhigh⟩ : ∃ high, c.code[offset]? = some high :=
    ⟨_, Array.getElem?_eq_getElem (Nat.lt_of_succ_lt h)⟩
  obtain ⟨low, hlow⟩ : ∃ low, c.code[offset + 1]? = some low := ⟨_, Array.getElem?_eq_getElem h⟩
  refine ⟨word high low, ?_, ?_⟩
  · simp [wordAt?, hhigh, hlow]
  · intro make
    unfold fetchWord
    simp only [hhigh, hlow]

theorem next_fetchOperands {op : Opcode} (h : offset + op.operandBytes ≤ c.size) :
    (c.fetchOperands offset op).next = offset + op.operandBytes := by
  cases op with
  | constant | getLocal | setLocal | getGlobal | defineGlobal | setGlobal =>
      exact next_fetchByte h _
  | jump | jumpIfFalse | loop =>
      obtain ⟨distance, -, hfetch⟩ := wordAt?_of_lt_size h
      exact congrArg Fetched.next (hfetch _)
  | _ => rfl

/-- Behind a complete instruction the next one is looked for. -/
theorem next_fetch {op : Opcode} (hop : c.opAt? offset = some op)
    (hcomplete : offset + 1 + op.operandBytes ≤ c.size) :
    (c.fetch offset).next = offset + 1 + op.operandBytes := by
  rw [fetch_of_opAt? hop]
  exact next_fetchOperands hcomplete

end Chunk

end StackScript
