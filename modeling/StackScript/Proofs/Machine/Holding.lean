import Mathlib.Tactic.Common
import StackScript.Machine.Stack

/-!
The stack as a list of values with the top first. The slots above the height are left
out of it: what an earlier value has left there is never seen again.
-/

namespace StackScript.Stack

/-- The stack has all of its slots, and those in use hold the values, the top first. -/
structure Holds (s : Stack) (values : List Value) : Prop where
  slots : s.slots.size = capacity
  height : s.height = values.length
  live : s.live = values.reverse

variable {s : Stack} {values : List Value} {v : Value}

theorem holds_nil (hslots : s.slots.size = capacity) (hempty : s.height = 0) : s.Holds [] :=
  ⟨hslots, hempty, by rw [live, hempty]; rfl⟩

namespace Holds

theorem length_le (h : s.Holds values) : values.length ≤ capacity := by
  have hlength := congrArg List.length h.live
  rw [Stack.live, List.length_take, List.length_reverse, Array.length_toList, h.slots] at hlength
  omega

/-- The value with `i` others above it. -/
theorem getElem? (h : s.Holds values) {i : Nat} (hi : i < values.length) :
    s.slots[values.length - 1 - i]? = values[i]? := by
  have hlt : values.length - 1 - i < s.height := by
    rw [h.height]
    omega
  have hlive : s.live[values.length - 1 - i]? = s.slots[values.length - 1 - i]? := by
    rw [Stack.live, List.getElem?_take_of_lt hlt, Array.getElem?_toList]
  have hback : values.length - 1 - (values.length - 1 - i) = i := by omega
  rw [← hlive, h.live, List.getElem?_reverse (by omega), hback]

theorem top (h : s.Holds (v :: values)) : s.slots[s.height - 1]? = some v := by
  have hfirst := h.getElem? (Nat.succ_pos values.length)
  rwa [← h.height] at hfirst

theorem height_ne_zero (h : s.Holds (v :: values)) : s.height ≠ 0 := by
  rw [h.height]
  exact Nat.succ_ne_zero values.length

theorem push (h : s.Holds values) (hroom : values.length < capacity) (v : Value) :
    (s.push v).Holds (v :: values) := by
  have hlt : s.height < s.slots.size := by rwa [h.height, h.slots]
  refine ⟨(s.size_slots_push v).trans h.slots, congrArg (· + 1) h.height, ?_⟩
  rw [live_push s v hlt, h.live, List.reverse_cons]

theorem drop (h : s.Holds (v :: values)) : s.drop.Holds values := by
  have hheight : s.height - 1 = values.length := by
    rw [h.height]
    rfl
  refine ⟨s.size_slots_drop.trans h.slots, hheight, ?_⟩
  have hlive : s.drop.live = s.live.take (s.height - 1) := by
    simp [Stack.drop, Stack.live, List.take_set_of_le, List.take_take]
  rw [hlive, h.live, hheight, List.reverse_cons, ← values.length_reverse, List.take_left]

/-- A slot in use takes another value, and all others stay. -/
theorem store (h : s.Holds values) {i : Nat} (hi : i < values.length) (v : Value) :
    (s.store (values.length - 1 - i) v).Holds (values.set i v) := by
  refine ⟨(s.size_slots_store _ v).trans h.slots, h.height.trans (List.length_set).symm, ?_⟩
  have hlive : (s.store (values.length - 1 - i) v).live = s.live.set (values.length - 1 - i) v := by
    simp [Stack.store, Stack.live, List.take_set]
  rw [hlive, h.live]
  refine List.ext_getElem? fun j => ?_
  by_cases hj : j < values.length
  · have hsame : values.length - 1 - i = j ↔ i = values.length - 1 - j := by omega
    rw [List.getElem?_reverse (by simpa using hj), List.getElem?_set, List.getElem?_set,
      List.getElem?_reverse hj, List.length_reverse, List.length_set]
    simp only [hsame]
    split
    · rw [if_pos (by omega)]
    · rfl
  · have hge : values.length ≤ j := Nat.le_of_not_lt hj
    rw [List.getElem?_eq_none (by simpa using hge), List.getElem?_eq_none (by simpa using hge)]

end Holds

end StackScript.Stack
