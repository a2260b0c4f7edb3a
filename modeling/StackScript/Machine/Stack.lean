import StackScript.Value

/-!
The value stack: a fixed number of slots, of which those below the height are in use.
Slots above it keep what was stored there, and code can reach any slot by its number.
-/

namespace StackScript

structure Stack where
  slots : Array Value
  height : Nat

namespace Stack

def capacity : Nat := 256

def empty : Stack := ⟨Array.replicate capacity .nil, 0⟩

/-- Puts `v` on top. -/
def push (s : Stack) (v : Value) : Stack :=
  { s with slots := s.slots.setIfInBounds s.height v, height := s.height + 1 }

/-- Takes the top value away and clears its slot. -/
def drop (s : Stack) : Stack :=
  { s with slots := s.slots.setIfInBounds (s.height - 1) .nil, height := s.height - 1 }

/-- Stores into a slot, whether in use or not. -/
def store (s : Stack) (slot : Nat) (v : Value) : Stack :=
  { s with slots := s.slots.setIfInBounds slot v }

/-- Empties the stack. Only the slots in use are cleared. -/
def reset (s : Stack) : Stack :=
  ⟨s.slots.mapIdx fun i v => if i < s.height then .nil else v, 0⟩

/-- The values in use, bottom first. -/
def live (s : Stack) : List Value :=
  s.slots.toList.take s.height

/-- The values in use as log records show them. -/
def listing (s : Stack) : String :=
  String.join (s.live.map fun v => "[ " ++ v.text ++ " ]")

@[simp] theorem size_slots_empty : empty.slots.size = capacity := by
  simp [empty]

@[simp] theorem size_slots_push (s : Stack) (v : Value) :
    (s.push v).slots.size = s.slots.size := by
  simp [push]

@[simp] theorem size_slots_drop (s : Stack) : s.drop.slots.size = s.slots.size := by
  simp [drop]

@[simp] theorem size_slots_store (s : Stack) (slot : Nat) (v : Value) :
    (s.store slot v).slots.size = s.slots.size := by
  simp [store]

@[simp] theorem size_slots_reset (s : Stack) : s.reset.slots.size = s.slots.size := by
  simp [reset]

/-- A push onto a free slot adds its value at the end of those in use. -/
theorem live_push (s : Stack) (v : Value) (h : s.height < s.slots.size) :
    (s.push v).live = s.live ++ [v] := by
  have hlt : s.height < s.slots.toList.length := by simpa using h
  simp only [live, push, Array.setIfInBounds, h, dite_true, Array.toList_set]
  rw [List.take_succ_eq_append_getElem (by simpa using hlt)]
  simp [List.take_set_of_le]

end Stack

end StackScript
