import StackScript.Proofs.Code.Flow
import StackScript.Proofs.Machine.Moves
import StackScript.Machine.Run

/-!
Symbolic instructions and what they are fetched as. An instruction whose operand is good
is fetched whole, and takes and leaves as many values as its opcode says.
-/

namespace StackScript

namespace Tree

/-- The instruction that the bytes stand for, given the pool of constants. -/
def Item.instruction? (pool : List Value) : Item → Option Instruction
  | .plain .pushNil => some (.push .nil)
  | .plain .pushTrue => some (.push (.bool true))
  | .plain .pushFalse => some (.push (.bool false))
  | .plain .pop => some .pop
  | .plain .equal => some .equal
  | .plain .greater => some .greater
  | .plain .less => some .less
  | .plain .add => some .add
  | .plain .subtract => some .subtract
  | .plain .multiply => some .multiply
  | .plain .divide => some .divide
  | .plain .not => some .not
  | .plain .negate => some .negate
  | .plain .print => some .print
  | .plain .ret => some .ret
  | .operand .constant byte => pool[byte.toNat]?.map .push
  | .operand .getLocal byte => some (.getLocal byte)
  | .operand .setLocal byte => some (.setLocal byte)
  | .operand .getGlobal byte => pool[byte.toNat]?.map fun v => .getGlobal v.text
  | .operand .defineGlobal byte => pool[byte.toNat]?.map fun v => .defineGlobal v.text
  | .operand .setGlobal byte => pool[byte.toNat]?.map fun v => .setGlobal v.text
  | .jump .jump distance => some (.jump distance)
  | .jump .jumpIfFalse distance => some (.jumpIfFalse distance)
  | .jump .loop distance => some (.loop distance)
  | _ => none

theorem Item.Made.exists_instruction {pool : List Value} {item : Item} (h : item.Made pool) :
    ∃ i, item.instruction? pool = some i := by
  have hshaped := h.shaped
  have hrefers := h.refers
  have hstays := h.stays
  cases item with
  | plain op =>
      cases op <;>
        first
        | exact ⟨_, rfl⟩
        | cases hshaped
  | operand op byte =>
      cases op with
      | constant | getGlobal | defineGlobal | setGlobal =>
          obtain ⟨v, hv, -⟩ := hrefers _ byte rfl (by simp)
          exact ⟨_, by rw [instruction?, hv]; rfl⟩
      | getLocal | setLocal => exact ⟨_, rfl⟩
      | _ => cases hshaped
  | jump op distance =>
      cases op <;>
        first
        | exact ⟨_, rfl⟩
        | cases hshaped

/-- An instruction does to the height of the stack what its opcode says. -/
theorem Item.effect_of_instruction {pool : List Value} {item : Item} {i : Instruction}
    (h : item.instruction? pool = some i) :
    i.pops = item.op.pops ∧ i.pushes = item.op.pushes := by
  unfold instruction? at h
  split at h
  all_goals first
    | (obtain rfl := Option.some.inj h; exact ⟨rfl, rfl⟩)
    | (obtain ⟨v, -, rfl⟩ := Option.map_eq_some_iff.mp h; exact ⟨rfl, rfl⟩)
    | cases h

/-- What is no jump and does not return goes on behind itself. -/
theorem Item.targets_of_instruction {pool : List Value} {item : Item} {i : Instruction}
    (h : item.instruction? pool = some i) (hstays : item.op ≠ .ret)
    (hjump : ∀ op distance, item ≠ .jump op distance) (next : Nat) : i.targets next = [next] := by
  unfold instruction? at h
  split at h
  all_goals first
    | exact absurd rfl hstays
    | exact absurd rfl (hjump _ _)
    | (obtain rfl := Option.some.inj h; rfl)
    | (obtain ⟨v, -, rfl⟩ := Option.map_eq_some_iff.mp h; rfl)
    | cases h

theorem Item.eq_loop_of_instruction {pool : List Value} {item : Item} {distance : Nat}
    (h : item.instruction? pool = some (.loop distance)) : item = .jump .loop distance := by
  unfold instruction? at h
  split at h
  all_goals first
    | (obtain ⟨v, -, hv⟩ := Option.map_eq_some_iff.mp h; cases hv; done)
    | cases h
  rfl

theorem Item.op_eq_ret_of_instruction {pool : List Value} {item : Item}
    (h : item.instruction? pool = some .ret) : item.op = .ret := by
  unfold instruction? at h
  split at h
  all_goals first
    | (obtain ⟨v, -, hv⟩ := Option.map_eq_some_iff.mp h; cases hv; done)
    | cases h
  rfl

/-- An access to a local comes from an opcode with the slot as its operand. -/
theorem Item.exists_local_of_instruction {pool : List Value} {item : Item} {i : Instruction}
    {slot : UInt8} (h : item.instruction? pool = some i)
    (hlocal : i = .getLocal slot ∨ i = .setLocal slot) :
    ∃ op ∈ [Opcode.getLocal, .setLocal], item = .operand op slot := by
  unfold instruction? at h
  split at h
  all_goals first
    | (obtain ⟨v, -, rfl⟩ := Option.map_eq_some_iff.mp h; rcases hlocal with hi | hi <;> cases hi)
    | (obtain rfl := Option.some.inj h
       rcases hlocal with hi | hi <;> cases hi <;> exact ⟨_, by simp, rfl⟩)
    | cases h

end Tree

open Tree

theorem Chunk.Has.fetch_instruction {c : Chunk} {offset : Nat} {item : Item} {rest : List Item}
    (h : c.Has offset (item :: rest)) {i : Instruction}
    (hi : item.instruction? c.constants.toList = some i)
    (hfits : ∀ op distance, item = .jump op distance → distance ≤ Builder.distanceMax) :
    c.fetch offset = ⟨offset + item.size, .ok i⟩ := by
  rw [h.fetch]
  have hconstant {op : Opcode} {byte : UInt8} {make : Value → Instruction}
    (hop : item = .operand op byte)
      (hmake : (c.constants.toList[byte.toNat]?).map make = some i) :
      c.fetchConstant (offset + 1) make = ⟨offset + 2, .ok i⟩ := by
    subst hop
    obtain ⟨v, hv, rfl⟩ := Option.map_eq_some_iff.mp hmake
    rw [Array.getElem?_toList] at hv
    exact h.fetchConstant hv make
  unfold Item.instruction? at hi
  split at hi
  case h_16 | h_19 | h_20 | h_21 => exact hconstant rfl hi
  case h_17 | h_18 =>
    obtain rfl := Option.some.inj hi
    exact h.fetchByte _
  case h_22 | h_23 | h_24 =>
    obtain rfl := Option.some.inj hi
    exact h.fetchWord (hfits _ _ rfl) _
  case h_25 => cases hi
  all_goals
    obtain rfl := Option.some.inj hi
    rfl

/-- A step executes the instruction that is fetched. -/
theorem Machine.step_of_fetch {c : Chunk} {ip next : Nat} {i : Instruction}
    (hfetch : c.fetch ip = ⟨next, .ok i⟩) (m : Machine) : m.step c ip =
      match i.exec next m with
      | .ok ip m => .ok ip m
      | .error stop m => .error (stop.outcome (c.lineBefore next)) m := by
  cases hexec : i.exec next m <;> simp only [Machine.step, hfetch, hexec]

/-- The instruction that returns does nothing else. -/
theorem Chunk.Has.step_ret {c : Chunk} {offset : Nat} {rest : List Item}
    (h : c.Has offset (.plain .ret :: rest)) (m : Machine) :
    m.step c offset = .error .finished m := by
  rw [Machine.step_of_fetch (h.fetch_instruction (i := .ret) rfl nofun)]
  rfl

end StackScript
