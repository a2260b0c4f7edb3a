import StackScript.Proofs.Machine.Avoiding

/-!
The bounds of the stack. Every effect keeps all of the slots and a height among them, whatever
the code around it is like. From such a stack no access is out of range: a push is held back when
the stack is full, a pop or a look at the top when it is empty, and a slot is numbered by one byte.
-/

namespace StackScript

/-- A stack with all of its slots and not more values in use than these. -/
structure Stack.Bounded (s : Stack) : Prop where
  slots : s.slots.size = Stack.capacity
  height : s.height ≤ Stack.capacity

namespace Stack.Bounded

variable {s : Stack} (h : s.Bounded)

theorem of_empty {s : Stack} (hslots : s.slots.size = Stack.capacity) (hempty : s.height = 0) :
    s.Bounded :=
  ⟨hslots, by rw [hempty]; exact Nat.zero_le _⟩

include h

theorem push (v : Value) (hroom : s.height ≠ Stack.capacity) : (s.push v).Bounded :=
  ⟨(s.size_slots_push v).trans h.slots, Nat.lt_of_le_of_ne h.height hroom⟩

theorem drop : s.drop.Bounded :=
  ⟨s.size_slots_drop.trans h.slots, Nat.sub_le_of_le_add (Nat.le_add_right_of_le h.height)⟩

theorem store (slot : Nat) (v : Value) : (s.store slot v).Bounded :=
  ⟨(s.size_slots_store slot v).trans h.slots, h.height⟩

/-- There is a slot at every place within the capacity. -/
theorem exists_slot {i : Nat} (hi : i < Stack.capacity) : ∃ v, s.slots[i]? = some v :=
  ⟨_, Array.getElem?_eq_getElem (h.slots ▸ hi)⟩

end Stack.Bounded

namespace Exec

/-- An effect that stays in range on every machine whose stack is bounded. -/
def Stays {α : Type} (x : Exec α) : Prop :=
  x.Avoids (fun m => m.stack.Bounded) .outOfRange

theorem stays_composes : Composes Stays :=
  avoids_composes trivial

theorem stays_push (v : Value) : (push v).Stays := by
  intro m h
  unfold push
  split
  · exact ⟨h, nofun⟩
  · rename_i hroom
    have hlt : m.stack.height < m.stack.slots.size := by
      rw [h.slots]
      exact Nat.lt_of_le_of_ne h.height hroom
    rw [if_pos hlt]
    exact ⟨h.push v hroom, nofun⟩

/-- Below the height there is always a slot. -/
theorem exists_top {m : Machine} (h : m.stack.Bounded) (hsome : m.stack.height ≠ 0) :
    ∃ v, m.stack.slots[m.stack.height - 1]? = some v := by
  have hheight := h.height
  exact h.exists_slot (by omega)

theorem stays_pop : pop.Stays := by
  intro m h
  unfold pop
  split
  · exact ⟨h, nofun⟩
  · obtain ⟨v, htop⟩ := exists_top h ‹_›
    rw [htop]
    exact ⟨h.drop, nofun⟩

theorem stays_peek : peek.Stays := by
  intro m h
  unfold peek
  split
  · exact ⟨h, nofun⟩
  · obtain ⟨v, htop⟩ := exists_top h ‹_›
    rw [htop]
    exact ⟨h, nofun⟩

/-- One byte numbers no slot beyond the capacity. -/
theorem stays_load (slot : UInt8) : (load slot.toNat).Stays := by
  intro m h
  obtain ⟨v, hslot⟩ := h.exists_slot slot.toNat_lt
  unfold load
  rw [hslot]
  exact ⟨h, nofun⟩

theorem stays_store (slot : UInt8) (v : Value) : (store slot.toNat v).Stays := by
  intro m h
  have hlt : slot.toNat < m.stack.slots.size := h.slots ▸ slot.toNat_lt
  unfold store
  rw [if_pos hlt]
  exact ⟨h.store _ v, nofun⟩

theorem stays_getGlobal (name : String) : (getGlobal name).Stays := by
  intro m h
  unfold getGlobal
  split
  · exact ⟨h, nofun⟩
  · exact ⟨h, nofun⟩

theorem stays_defineGlobal (name : String) (v : Value) : (defineGlobal name v).Stays :=
  fun _ h => ⟨h, nofun⟩

theorem stays_setGlobal (name : String) (v : Value) : (setGlobal name v).Stays := by
  intro m h
  unfold setGlobal
  split
  · exact ⟨h, nofun⟩
  · exact ⟨h, nofun⟩

theorem stays_write (bytes : Array UInt8) : (write bytes).Stays := by
  intro m h
  rw [write_eq]
  split
  · exact ⟨h, nofun⟩
  · exact ⟨h, nofun⟩

end Exec

open Exec

/-- Every instruction stays in range, wherever it stands and whatever its operands are. -/
theorem Instruction.stays_exec (i : Instruction) (next : Nat) : (i.exec next).Stays := by
  refine Consists.exec (C := Stays) ?_ stays_composes next
  exact {
    push := stays_push
    pop := stays_pop
    peek := stays_peek
    load := fun slot _ => stays_load slot
    store := fun slot v _ => stays_store slot v
    getGlobal := fun name _ => stays_getGlobal name
    defineGlobal := fun name v _ => stays_defineGlobal name v
    setGlobal := fun name v _ => stays_setGlobal name v
    write := fun v _ => stays_write v.printed }

namespace Machine

variable {c : Chunk} {n ip ip' : Nat} {m m' : Machine} {outcome : Outcome}

theorem bounded_of_path (h : m.stack.Bounded) (hpath : c.Path n ip m ip' m') :
    m'.stack.Bounded := by
  have houter : Stop.outOfRange.Outer := trivial
  exact avoids_of_path houter Instruction.stays_exec h hpath

/-- A run ends for no access out of range. -/
theorem bounded_of_ends (h : m.stack.Bounded) (hends : c.Ends ip m outcome m') :
    m'.stack.Bounded ∧ outcome ≠ .outOfRange := by
  have houter : Stop.outOfRange.Outer := trivial
  exact avoids_of_ends houter Instruction.stays_exec h hends

end Machine

end StackScript
