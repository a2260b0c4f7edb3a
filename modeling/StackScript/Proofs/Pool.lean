import Mathlib.Data.List.Infix
import StackScript.Tree.Code

/-!
The pool of constants as a list without repetitions. A pool only ever grows at its end,
so a constant keeps its place in every later pool, and the operand that was written for
it early on still stands for it in the finished chunk.
-/

namespace StackScript

/-- Sameness of constants is equality: numbers are compared by all their bits. -/
theorem Value.same_iff {v w : Value} : v.same w = true ↔ v = w := by
  cases v <;> cases w <;> simp [Value.same, Value.equal, Number.ext_iff]

@[simp] theorem Value.same_self (v : Value) : v.same v = true :=
  Value.same_iff.mpr rfl

namespace Tree

theorem any_same_iff {pool : List Value} {v : Value} : pool.any (·.same v) = true ↔ v ∈ pool := by
  simp [Value.same_iff]

theorem addToPool_of_mem {pool : List Value} {v : Value} (h : v ∈ pool) :
    addToPool pool v = pool := by
  rw [addToPool, if_pos (any_same_iff.mpr h)]

theorem addToPool_of_not_mem {pool : List Value} {v : Value} (h : v ∉ pool) :
    addToPool pool v = pool ++ [v] := by
  rw [addToPool, if_neg (mt any_same_iff.mp h)]

theorem mem_addToPool (pool : List Value) (v : Value) : v ∈ addToPool pool v := by
  by_cases h : v ∈ pool
  · rwa [addToPool_of_mem h]
  · simp [addToPool_of_not_mem h]

theorem prefix_addToPool (pool : List Value) (v : Value) : pool <+: addToPool pool v := by
  by_cases h : v ∈ pool
  · rw [addToPool_of_mem h]
  · rw [addToPool_of_not_mem h]
    exact List.prefix_append pool [v]

/-- The pool after more constants have been mentioned. -/
def grow (pool constants : List Value) : List Value :=
  constants.foldl addToPool pool

@[simp] theorem grow_nil (pool : List Value) : grow pool [] = pool := rfl

@[simp] theorem grow_cons (pool : List Value) (v : Value) (rest : List Value) :
    grow pool (v :: rest) = grow (addToPool pool v) rest := rfl

@[simp] theorem grow_append (pool first second : List Value) :
    grow pool (first ++ second) = grow (grow pool first) second :=
  List.foldl_append

theorem Stmt.pool_eq (program : Stmt) : program.pool = grow [] (program.constants true []) := rfl

theorem prefix_grow (pool constants : List Value) : pool <+: grow pool constants := by
  induction constants generalizing pool with
  | nil => exact List.prefix_rfl
  | cons v rest ih => exact (prefix_addToPool pool v).trans (ih (addToPool pool v))

theorem length_le_grow (pool constants : List Value) : pool.length ≤ (grow pool constants).length :=
  (prefix_grow pool constants).length_le

theorem mem_grow {pool constants : List Value} {v : Value} (h : v ∈ constants) :
    v ∈ grow pool constants := by
  induction constants generalizing pool with
  | nil => cases h
  | cons w rest ih =>
      rcases List.mem_cons.mp h with rfl | h
      · exact (prefix_grow _ rest).subset (mem_addToPool pool v)
      · exact ih h

theorem findIdx_same {pool : List Value} {v : Value} (h : v ∈ pool) :
    pool.findIdx (·.same v) < pool.length ∧ pool[pool.findIdx (·.same v)]? = some v := by
  have hlt : pool.findIdx (·.same v) < pool.length :=
    List.findIdx_lt_length_of_exists ⟨v, h, v.same_self⟩
  refine ⟨hlt, ?_⟩
  rw [List.getElem?_eq_getElem hlt]
  have hsame : pool[pool.findIdx (·.same v)].same v = true :=
    List.findIdx_getElem (p := fun w => Value.same w v)
  exact congrArg some (Value.same_iff.mp hsame)

/-- A constant keeps its place when the pool grows. -/
theorem indexIn_of_later {pool later : List Value} {v : Value} (h : v ∈ pool)
    (hlater : pool <+: later) : indexIn later v = indexIn pool v := by
  obtain ⟨rest, rfl⟩ := hlater
  rw [indexIn, indexIn, List.findIdx_append, if_pos (findIdx_same h).1]

/-- The operand of a constant leads back to it, as long as one byte can address all of
the pool. -/
theorem getElem?_indexIn {pool : List Value} {v : Value} (h : v ∈ pool)
    (hsize : pool.length ≤ Chunk.constantsMax) : pool[(indexIn pool v).toNat]? = some v := by
  obtain ⟨hlt, hget⟩ := findIdx_same h
  have hbyte : pool.findIdx (·.same v) < 256 := lt_of_lt_of_le hlt hsize
  rw [indexIn, UInt8.toNat_ofNat', Nat.mod_eq_of_lt hbyte]
  exact hget

end Tree

open Tree

namespace Chunk

variable (c : Chunk) {v : Value}

theorem findIdx?_constants (p : Value → Bool) :
    c.constants.findIdx? p = c.constants.toList.findIdx? p := by
  rw [← List.findIdx?_toArray, Array.toArray_toList]

/-- A constant of the pool is found at its first place, however large the pool is. -/
theorem addConstant_of_mem (h : v ∈ c.constants.toList) :
    c.addConstant v = (c, some (indexIn c.constants.toList v)) := by
  have hsome : c.constants.toList.findIdx? (·.same v) =
      some (c.constants.toList.findIdx (·.same v)) :=
    List.findIdx?_eq_some_of_exists ⟨v, h, v.same_self⟩
  unfold addConstant
  rw [findIdx?_constants, hsome]
  rfl

/-- A new constant goes to the end, unless the pool has exactly the largest size. -/
theorem addConstant_of_not_mem (h : v ∉ c.constants.toList) :
    c.addConstant v = if c.constants.size = constantsMax then (c, none)
      else ({ c with constants := c.constants.push v }, some (UInt8.ofNat c.constants.size)) := by
  have hnone : c.constants.toList.findIdx? (·.same v) = none := by
    simp only [List.findIdx?_eq_none_iff, Bool.eq_false_iff]
    intro w hw hsame
    exact h (Value.same_iff.mp hsame ▸ hw)
  unfold addConstant
  rw [findIdx?_constants, hnone]

/-- Adding a constant fails exactly when the pool would outgrow one-byte operands. -/
theorem addConstant_eq (v : Value) (hsize : c.constants.size ≤ constantsMax) :
    c.addConstant v =
      if (addToPool c.constants.toList v).length ≤ constantsMax then
        ({ c with constants := (addToPool c.constants.toList v).toArray },
          some (indexIn (addToPool c.constants.toList v) v))
      else (c, none) := by
  by_cases h : v ∈ c.constants.toList
  · have hroom : c.constants.toList.length ≤ constantsMax := hsize
    rw [addConstant_of_mem c h, addToPool_of_mem h, if_pos hroom]
  · have hfresh : c.constants.toList.findIdx (·.same v) = c.constants.size := by
      apply List.findIdx_eq_length.mpr
      intro w hw
      exact Bool.eq_false_iff.mpr fun hsame => h (Value.same_iff.mp hsame ▸ hw)
    have hindex : (c.constants.toList ++ [v]).findIdx (·.same v) = c.constants.size := by
      rw [List.findIdx_append, hfresh]
      simp
    rw [addConstant_of_not_mem c h, addToPool_of_not_mem h]
    by_cases hfull : c.constants.size = constantsMax
    · simp [hfull]
    · have hroom : c.constants.size < constantsMax := lt_of_le_of_ne hsize hfull
      simp only [hfull, if_false, List.length_append, Array.length_toList, List.length_singleton,
        Nat.succ_le_of_lt hroom, if_true, indexIn, hindex]
      rw [← Array.toList_push, Array.toArray_toList]

end Chunk

end StackScript
