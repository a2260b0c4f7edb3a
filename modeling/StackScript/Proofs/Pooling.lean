import Mathlib.Tactic.Common
import StackScript.Proofs.Pool

/-!
What an index into the pool stands for. In a chunk that was built by calls from the empty one, an
index that a call has given stands for its constant for good, and no other constant is ever given
it: the pool holds the constants in the order in which they came, each once, up to the largest
size. A pool that was made too large by hand is another matter, since its places past the largest
size have no index of their own.
-/

namespace StackScript

open Tree

namespace Tree

variable {pool later : List Value} {v : Value}

theorem getElem?_of_later {i : Nat} (h : pool[i]? = some v) (hlater : pool <+: later) :
    later[i]? = some v := by
  obtain ⟨rest, rfl⟩ := hlater
  rw [List.getElem?_append_left (List.getElem?_eq_some_iff.mp h).1]
  exact h

theorem nodup_addToPool (h : pool.Nodup) (v : Value) : (addToPool pool v).Nodup := by
  by_cases hv : v ∈ pool
  · rwa [addToPool_of_mem hv]
  · rw [addToPool_of_not_mem hv]
    refine List.nodup_append.mpr ⟨h, List.pairwise_singleton _ v, ?_⟩
    rintro w hw u hu rfl
    exact hv (List.mem_singleton.mp hu ▸ hw)

theorem nodup_grow (h : pool.Nodup) (constants : List Value) : (grow pool constants).Nodup := by
  induction constants generalizing pool with
  | nil => exact h
  | cons v rest ih => exact ih (nodup_addToPool h v)

theorem any_same_eq_false_iff : pool.any (·.same v) = false ↔ v ∉ pool :=
  Bool.eq_false_iff.trans (not_congr any_same_iff)

/-- A pool grows by what is new, each constant at its first mention. -/
theorem grow_eq_append (pool constants : List Value) : grow pool constants =
    pool ++ (constants.filter fun v => !pool.any (·.same v)).eraseDupsBy Value.same := by
  induction constants generalizing pool with
  | nil => simp
  | cons v rest ih =>
      rw [grow_cons, ih]
      by_cases h : v ∈ pool
      · rw [addToPool_of_mem h, List.filter_cons, any_same_iff.mpr h]
        rfl
      · have hlater : (rest.filter fun w => !(pool ++ [v]).any (·.same w)) =
            (rest.filter fun w => !pool.any (·.same w)).filter fun w => w.same v = false := by
          rw [List.filter_filter]
          apply List.filter_congr
          intro w _
          have hswap : v.same w = w.same v := by
            rw [Bool.eq_iff_iff, Value.same_iff, Value.same_iff]
            exact eq_comm
          rw [List.any_append, List.any_cons, List.any_nil, Bool.or_false, hswap, Bool.not_or,
            Bool.and_comm, Bool.decide_eq_false]
        rw [addToPool_of_not_mem h, List.filter_cons, any_same_eq_false_iff.mpr h, Bool.not_false,
          if_pos rfl, List.eraseDupsBy_cons, hlater, List.append_assoc, List.singleton_append]

/-- Of a pool that is cut off, the part that is left does not change when it is full. -/
theorem take_addToPool (pool : List Value) (v : Value) (size : Nat) :
    (addToPool pool v).take size =
      if (addToPool (pool.take size) v).length ≤ size then addToPool (pool.take size) v
      else pool.take size := by
  by_cases hroom : pool.length ≤ size
  · rw [List.take_of_length_le hroom]
    split
    · rename_i hfits
      rw [List.take_of_length_le hfits]
    · rename_i hfull
      by_cases hv : v ∈ pool
      · rw [addToPool_of_mem hv] at hfull
        exact absurd hroom hfull
      · rw [addToPool_of_not_mem hv] at hfull ⊢
        simp only [List.length_append, List.length_singleton] at hfull
        rw [List.take_append_of_le_length (by omega), List.take_of_length_le hroom]
  · have hsame : (addToPool pool v).take size = pool.take size := by
      obtain ⟨rest, hrest⟩ := prefix_addToPool pool v
      rw [← hrest, List.take_append_of_le_length (by omega)]
    rw [hsame]
    split
    · rename_i hfits
      by_cases hv : v ∈ pool.take size
      · rw [addToPool_of_mem hv]
      · rw [addToPool_of_not_mem hv] at hfits
        simp only [List.length_append, List.length_take, List.length_singleton] at hfits
        omega
    · rfl

end Tree

namespace Chunk

/-- The constant at an index is the same as `v`. -/
def Denotes (c : Chunk) (index : UInt8) (v : Value) : Prop :=
  ∃ w, c.constants[index.toNat]? = some w ∧ w.same v = true

section Denotes

variable {c d : Chunk} {index other : UInt8} {v w : Value}

theorem denotes_iff : c.Denotes index v ↔ c.constants.toList[index.toNat]? = some v := by
  unfold Denotes
  rw [Array.getElem?_toList]
  constructor
  · rintro ⟨w, hw, hsame⟩
    rwa [Value.same_iff.mp hsame] at hw
  · intro h
    exact ⟨v, h, v.same_self⟩

theorem Denotes.unique (hv : c.Denotes index v) (hw : c.Denotes index w) : v = w :=
  Option.some.inj ((denotes_iff.mp hv).symm.trans (denotes_iff.mp hw))

/-- In a pool without repetitions a constant has one index. -/
theorem Denotes.index_unique (hindex : c.Denotes index v) (hother : c.Denotes other v)
    (hnodup : c.constants.toList.Nodup) : index = other := by
  have hget := denotes_iff.mp hindex
  have hlt := (List.getElem?_eq_some_iff.mp hget).1
  exact UInt8.toNat_inj.mp
    ((List.getElem?_inj hlt hnodup).mp (hget.trans (denotes_iff.mp hother).symm))

theorem Denotes.later (h : c.Denotes index v)
    (hlater : c.constants.toList <+: d.constants.toList) : d.Denotes index v :=
  denotes_iff.mpr (getElem?_of_later (denotes_iff.mp h) hlater)

theorem Denotes.mem_take (h : c.Denotes index v) : v ∈ c.constants.toList.take constantsMax := by
  have hget := denotes_iff.mp h
  rw [← List.getElem?_take_of_lt (j := constantsMax) index.toNat_lt] at hget
  exact List.mem_of_getElem? hget

/-- A constant with a place below the largest size is denoted by its index. -/
theorem denotes_indexIn (h : v ∈ c.constants.toList.take constantsMax) :
    c.Denotes (indexIn c.constants.toList v) v := by
  have hfront : c.constants.toList.take constantsMax <+: c.constants.toList := List.take_prefix ..
  rw [denotes_iff, indexIn_of_later h hfront]
  exact getElem?_of_later (getElem?_indexIn h (List.length_take_le ..)) hfront

/-- As long as the pool is no larger than it may be, an index stands for what it was given for. -/
theorem denotes_of_addConstant (hsize : c.constants.size ≤ constantsMax)
    (h : (c.addConstant v).2 = some index) : (c.addConstant v).1.Denotes index v := by
  by_cases hv : v ∈ c.constants.toList
  · rw [addConstant_of_mem c hv] at h ⊢
    obtain rfl := Option.some.inj h
    apply denotes_indexIn
    rwa [List.take_of_length_le hsize]
  · rw [addConstant_of_not_mem c hv] at h ⊢
    by_cases hfull : c.constants.size = constantsMax
    · rw [if_pos hfull] at h
      cases h
    · rw [if_neg hfull] at h ⊢
      obtain rfl := Option.some.inj h
      have hbyte : (UInt8.ofNat c.constants.size).toNat = c.constants.size :=
        UInt8.toNat_ofNat_of_lt' (Nat.lt_of_le_of_ne hsize hfull)
      refine ⟨v, ?_, v.same_self⟩
      rw [hbyte, Array.getElem?_push_size]

end Denotes

section Addition

variable (c : Chunk) (v : Value)

theorem prefix_addConstant : c.constants.toList <+: (c.addConstant v).1.constants.toList := by
  by_cases hv : v ∈ c.constants.toList
  · rw [addConstant_of_mem c hv]
  · rw [addConstant_of_not_mem c hv]
    split
    · exact List.prefix_rfl
    · rw [Array.toList_push]
      exact List.prefix_append ..

/-- Only a full pool without the constant refuses it. -/
theorem addConstant_eq_none_iff : (c.addConstant v).2 = none ↔
    c.constants.size = constantsMax ∧ ∀ w ∈ c.constants.toList, w.same v = false := by
  by_cases hv : v ∈ c.constants.toList
  · rw [addConstant_of_mem c hv]
    constructor
    · intro h
      cases h
    · rintro ⟨-, hother⟩
      exact absurd v.same_self (Bool.eq_false_iff.mp (hother v hv))
  · have hother : ∀ w ∈ c.constants.toList, w.same v = false := by
      intro w hw
      exact Bool.eq_false_iff.mpr fun hsame => hv (Value.same_iff.mp hsame ▸ hw)
    rw [addConstant_of_not_mem c hv]
    by_cases hfull : c.constants.size = constantsMax
    · rw [if_pos hfull]
      exact ⟨fun _ => ⟨hfull, hother⟩, fun _ => rfl⟩
    · rw [if_neg hfull]
      constructor
      · intro h
        cases h
      · rintro ⟨hsize, -⟩
        exact absurd hsize hfull

/-- A refused constant leaves the chunk as it was. -/
theorem addConstant_of_none (h : (c.addConstant v).2 = none) : (c.addConstant v).1 = c := by
  obtain ⟨hfull, hother⟩ := (addConstant_eq_none_iff c v).mp h
  have hv : v ∉ c.constants.toList :=
    fun hv => absurd v.same_self (Bool.eq_false_iff.mp (hother v hv))
  rw [addConstant_of_not_mem c hv, if_pos hfull]

/-- An addition is sound if it gives no index that stands for another constant, and does not
enlarge a pool that has all the entries it may have. That is so exactly when the pool has no more
of them than that or holds the constant among the first of them. -/
theorem addConstant_sound_iff :
    ((∀ index, (c.addConstant v).2 = some index → (c.addConstant v).1.Denotes index v) ∧
      (constantsMax ≤ c.constants.size → (c.addConstant v).1.constants.size = c.constants.size)) ↔
    c.constants.size ≤ constantsMax ∨
      ∃ w ∈ c.constants.toList.take constantsMax, w.same v = true := by
  have hamong : (∃ w ∈ c.constants.toList.take constantsMax, w.same v = true) ↔
      v ∈ c.constants.toList.take constantsMax := by
    simp [Value.same_iff]
  rw [hamong]
  by_cases hv : v ∈ c.constants.toList
  · rw [addConstant_of_mem c hv]
    constructor
    · rintro ⟨hdenotes, -⟩
      exact Or.inr (hdenotes _ rfl).mem_take
    · intro hplace
      refine ⟨fun index hindex => ?_, fun _ => rfl⟩
      obtain rfl := Option.some.inj hindex
      apply denotes_indexIn
      rcases hplace with hsize | hplace
      · rwa [List.take_of_length_le hsize]
      · exact hplace
  · have hbeyond : v ∉ c.constants.toList.take constantsMax :=
      fun h => hv (List.mem_of_mem_take h)
    constructor
    · rintro ⟨-, hsize⟩
      left
      apply Nat.le_of_not_lt
      intro hlarge
      have hgrown := hsize (Nat.le_of_lt hlarge)
      rw [addConstant_of_not_mem c hv, if_neg (Nat.ne_of_gt hlarge), Array.size_push] at hgrown
      exact absurd hgrown (Nat.succ_ne_self _)
    · intro hplace
      have hsize : c.constants.size ≤ constantsMax := hplace.resolve_right hbeyond
      refine ⟨fun index hindex => denotes_of_addConstant hsize hindex, fun hlarge => ?_⟩
      rw [addConstant_of_not_mem c hv, if_pos (Nat.le_antisymm hsize hlarge)]

/-- A constant behind the first 256 is given the index of another one, and so is one that is added
there. -/
example :
    let c : Chunk := ⟨#[], #[], (Array.replicate 256 .nil).push (.bool true)⟩
    (c.addConstant (.bool true)).2 = some 0 ∧ (c.addConstant (.bool false)).2 = some 1 ∧
      (c.addConstant (.bool false)).1.constants.size = 258 := by
  decide +kernel

end Addition

/-- A call that adds to a chunk. -/
inductive Call where
  | write (byte : UInt8) (line : Nat)
  | constant (v : Value)

/-- The constants that calls add, in order. -/
def Call.constants (calls : List Call) : List Value :=
  calls.filterMap fun
    | .write _ _ => none
    | .constant v => some v

/-- The chunk after a call. -/
def call (c : Chunk) : Call → Chunk
  | .write byte line => c.write byte line
  | .constant v => (c.addConstant v).1

/-- The chunk after calls. -/
def after (c : Chunk) (calls : List Call) : Chunk :=
  calls.foldl call c

section Calls

variable {c : Chunk} {v : Value}

/-- A call keeps a pool the grown one, cut off at the largest size. -/
theorem constants_call {constants : List Value}
    (h : c.constants.toList = (grow [] constants).take constantsMax) (x : Call) :
    (c.call x).constants.toList =
      (grow [] (constants ++ Call.constants [x])).take constantsMax := by
  cases x with
  | write byte line => simpa [call, Call.constants] using h
  | constant v =>
      have hsize : c.constants.size ≤ constantsMax := by
        rw [← Array.length_toList, h]
        exact List.length_take_le ..
      change _ = (grow [] (constants ++ [v])).take constantsMax
      rw [grow_append, grow_cons, grow_nil, take_addToPool, ← h, call, addConstant_eq c v hsize]
      split <;> rfl

theorem constants_after {constants : List Value}
    (h : c.constants.toList = (grow [] constants).take constantsMax) (calls : List Call) :
    (c.after calls).constants.toList =
      (grow [] (constants ++ Call.constants calls)).take constantsMax := by
  induction calls generalizing c constants with
  | nil => simpa [after, Call.constants] using h
  | cons x rest ih =>
      have hrest := ih (constants_call h x)
      have hcalls : Call.constants (x :: rest) = Call.constants [x] ++ Call.constants rest := by
        rw [← List.singleton_append, Call.constants, List.filterMap_append]
        rfl
      rw [hcalls, ← List.append_assoc]
      exact hrest

theorem prefix_after (c : Chunk) (calls : List Call) :
    c.constants.toList <+: (c.after calls).constants.toList := by
  induction calls generalizing c with
  | nil => exact List.prefix_rfl
  | cons x rest ih =>
      refine List.IsPrefix.trans ?_ (ih (c.call x))
      cases x with
      | write byte line => exact List.prefix_rfl
      | constant v => exact prefix_addConstant c v

/-- The pool that calls build from the empty chunk. -/
theorem constants_built (calls : List Call) :
    (({} : Chunk).after calls).constants.toList =
      (grow [] (Call.constants calls)).take constantsMax :=
  @constants_after {} [] rfl calls

theorem size_built_le (calls : List Call) :
    (({} : Chunk).after calls).constants.size ≤ constantsMax := by
  rw [← Array.length_toList, constants_built]
  exact List.length_take_le ..

theorem nodup_built (calls : List Call) : (({} : Chunk).after calls).constants.toList.Nodup := by
  rw [constants_built]
  exact (nodup_grow List.nodup_nil _).sublist (List.take_sublist ..)

/-- Wherever calls have built a pool without repetitions, an index that one more call gives is
given again for the same constant only. -/
theorem addConstant_iff_of_denotes {index : UInt8} (hnodup : c.constants.toList.Nodup)
    (hsize : c.constants.size ≤ constantsMax) (h : c.Denotes index v) (w : Value) :
    (c.addConstant w).2 = some index ↔ w.same v = true := by
  rw [Value.same_iff]
  constructor
  · intro hindex
    have hboth := h.later (prefix_addConstant c w)
    exact (denotes_of_addConstant hsize hindex).unique hboth
  · rintro rfl
    have hw := h.mem_take
    rw [addConstant_of_mem c (List.mem_of_mem_take hw)]
    exact congrArg some ((denotes_indexIn hw).index_unique h hnodup)

end Calls

/-- After any calls on the empty chunk, the pool holds the constants of those calls once each, in
the order in which they first came, as many as it may. One more constant is refused exactly if the
pool is full of others, and then nothing changes. If it is given an index, then the index stands for
it after all later calls too, and these are given the index for the same constant and for no other.
Numbers are the same constant exactly if they have the same bits, so the two zeros are not, and NaNs
only if their bits agree; a number and a text never are. -/
theorem pool_over_calls (calls : List Call) (v : Value) :
    let c := ({} : Chunk).after calls
    c.constants.toList = ((Call.constants calls).eraseDupsBy Value.same).take constantsMax ∧
      c.constants.size ≤ constantsMax ∧
      c.constants.toList.Pairwise (fun w u => w.same u = false) ∧
      ((c.addConstant v).2 = none ↔
        c.constants.size = constantsMax ∧ ∀ w ∈ c.constants.toList, w.same v = false) ∧
      ((c.addConstant v).2 = none → (c.addConstant v).1 = c) ∧
      (∀ index, (c.addConstant v).2 = some index → ∀ later : List Call,
        ((c.addConstant v).1.after later).Denotes index v ∧
        ∀ w, (((c.addConstant v).1.after later).addConstant w).2 = some index ↔ w.same v = true) ∧
      (∀ x y : Number, (Value.number x).same (.number y) = true ↔ x.bits = y.bits) ∧
      (Value.number ⟨0⟩).same (.number (-⟨0⟩)) = false ∧
      ∀ (x : Number) (s : String), (Value.number x).same (.string s) = false := by
  intro c
  refine ⟨?_, size_built_le calls, ?_, addConstant_eq_none_iff c v, addConstant_of_none c v, ?_,
    fun x y => beq_iff_eq, by decide, fun x s => rfl⟩
  · have hgrow := grow_eq_append [] (Call.constants calls)
    simp only [List.any_nil, Bool.not_false, List.filter_true, List.nil_append] at hgrow
    rw [← hgrow]
    exact constants_built calls
  · refine (nodup_built calls).imp fun hne => ?_
    exact Bool.eq_false_iff.mpr fun hsame => hne (Value.same_iff.mp hsame)
  · intro index hindex later
    have hdenotes : ((c.addConstant v).1.after later).Denotes index v :=
      (denotes_of_addConstant (size_built_le calls) hindex).later (prefix_after _ later)
    have hbuilt : (c.addConstant v).1.after later =
        ({} : Chunk).after (calls ++ .constant v :: later) := by
      unfold after
      rw [List.foldl_append]
      rfl
    refine ⟨hdenotes, addConstant_iff_of_denotes ?_ ?_ hdenotes⟩
    · rw [hbuilt]
      exact nodup_built _
    · rw [hbuilt]
      exact size_built_le _

end Chunk

end StackScript
