import StackScript.Builder.Scope
import StackScript.Proofs.Simulation.Instruction

/-!
Variables. The locals of the store lie on the stack in the order of the scope, so the slot
of a name leads to the value that the environment has for it; every other name is looked
up among the globals on both sides.
-/

namespace StackScript

open Tree

namespace Tree

section Locals

variable {locals : List (String × Value)} {x : String} {i : Nat}

theorem lookup_of_findIdx? (h : (locals.map Prod.fst).findIdx? (· = x) = some i) :
    ∃ v, locals.lookup x = some v ∧ (locals.map Prod.snd)[i]? = some v := by
  induction locals generalizing i with
  | nil => cases h
  | cons entry locals ih =>
      obtain ⟨name, value⟩ := entry
      rw [List.map_cons, List.findIdx?_cons] at h
      by_cases hname : name = x
      · subst hname
        rw [if_pos (decide_eq_true rfl)] at h
        obtain rfl := Option.some.inj h
        exact ⟨value, by simp, rfl⟩
      · have hne : (x == name) = false := beq_eq_false_iff_ne.mpr (Ne.symm hname)
        rw [if_neg (by simpa using hname)] at h
        obtain ⟨j, hj, rfl⟩ := Option.map_eq_some_iff.mp h
        obtain ⟨v, hlookup, hv⟩ := ih hj
        exact ⟨v, by rw [List.lookup_cons, hne]; exact hlookup, hv⟩

theorem lookup_of_findIdx?_none (h : (locals.map Prod.fst).findIdx? (· = x) = none) :
    locals.lookup x = none := by
  induction locals with
  | nil => rfl
  | cons entry locals ih =>
      obtain ⟨name, value⟩ := entry
      rw [List.map_cons, List.findIdx?_cons] at h
      by_cases hname : name = x
      · rw [if_pos (decide_eq_true hname)] at h
        cases h
      · have hne : (x == name) = false := beq_eq_false_iff_ne.mpr (Ne.symm hname)
        rw [if_neg (by simpa using hname), Option.map_eq_none_iff] at h
        rw [List.lookup_cons, hne]
        exact ih h

/-- An update changes one value and no name. -/
theorem map_update (v : Value) (h : (locals.map Prod.fst).findIdx? (· = x) = some i) :
    (Eval.update x v locals).map Prod.fst = locals.map Prod.fst ∧
      (Eval.update x v locals).map Prod.snd = (locals.map Prod.snd).set i v := by
  induction locals generalizing i with
  | nil => cases h
  | cons entry locals ih =>
      obtain ⟨name, value⟩ := entry
      rw [List.map_cons, List.findIdx?_cons] at h
      by_cases hname : name = x
      · subst hname
        rw [if_pos (decide_eq_true rfl)] at h
        obtain rfl := Option.some.inj h
        simp [Eval.update]
      · rw [if_neg (by simpa using hname)] at h
        obtain ⟨j, hj, rfl⟩ := Option.map_eq_some_iff.mp h
        obtain ⟨hnames, hvalues⟩ := ih hj
        simp [Eval.update, hname, hnames, hvalues]

end Locals

/-- A slot counts from the outermost local, a position in the scope from the innermost. -/
theorem Scope.findIdx?_of_slot? {scope : Scope} {x : String} {slot : UInt8}
    (h : scope.slot? x = some slot) (hfew : scope.length ≤ Builder.localsMax) :
    ∃ i, scope.findIdx? (· = x) = some i ∧ i < scope.length ∧
      slot.toNat = scope.length - 1 - i := by
  obtain ⟨i, hi, rfl⟩ := Option.map_eq_some_iff.mp h
  have hlt : i < scope.length := (List.findIdx?_eq_some_iff_getElem.mp hi).1
  have hbyte : scope.length - 1 - i < 256 := by
    have hmax : scope.length ≤ 256 := hfew
    omega
  refine ⟨i, hi, hlt, ?_⟩
  rw [UInt8.toNat_ofNat', Nat.mod_eq_of_lt hbyte]

theorem Scope.mem_of_slot?_none {scope : Scope} {x : String} {pool : List Value}
    (h : scope.slot? x = none) (hmem : ∀ v ∈ scope.nameConstant x, v ∈ pool) :
    Value.string x ∈ pool := by
  refine hmem _ ?_
  simp [Scope.nameConstant, Scope.not_mem_of_slot? h]

end Tree

namespace Chunk

variable {c : Chunk} {before : Array UInt8} {fuel offset : Nat} {scope : Scope}
  {operands : List Value} {rest : List Item} {x : String}

/-- A variable is read and its value held. -/
theorem simulates_read
    (h : c.Runs offset (access c.constants.toList scope .getLocal .getGlobal x :: rest))
    (hmem : ∀ v ∈ scope.nameConstant x, v ∈ c.constants.toList)
    (hroom : c.constants.toList.length ≤ Chunk.constantsMax)
    (hfew : scope.length ≤ Builder.localsMax) :
    c.Simulates before fuel ⟨offset, scope, operands⟩
      (do let v ← Eval.read x; Eval.hold operands.length v)
      fun v => ⟨offset + 2, scope, v :: operands⟩ := by
  unfold access at h
  split at h
  · rename_i slot hslot
    obtain ⟨i, hi, hlt, hcount⟩ := Scope.findIdx?_of_slot? hslot hfew
    refine simulates_of_exec h (i := .getLocal slot) rfl fun m s hm => ?_
    have hnames : s.locals.map Prod.fst = scope := hm.names
    obtain ⟨v, hlookup, hv⟩ := lookup_of_findIdx? (hnames.symm ▸ hi)
    have hread : Eval.read x s = .ok v s := by rw [Eval.read, hlookup]
    have hposition :
        (operands ++ s.locals.map Prod.snd).length - 1 - (operands.length + i) = slot.toNat := by
      rw [List.length_append, List.length_map, hm.length_locals, hcount]
      dsimp only
      omega
    have hload := Exec.load_of_holds hm.stack (i := operands.length + i) (v := v) (by
      rw [List.getElem?_append_right (Nat.le_add_right ..), Nat.add_sub_cancel_left]
      exact hv)
    rw [hposition] at hload
    rw [Instruction.exec, bind_of_ok hload, bind_of_ok hread]
    exact executes_push v hm
  · rename_i hslot
    have hx := Scope.mem_of_slot?_none hslot hmem
    refine simulates_of_exec h (i := .getGlobal x)
      (by rw [Item.instruction?, getElem?_indexIn hx hroom]; rfl) fun m s hm => ?_
    have hnames : s.locals.map Prod.fst = scope := hm.names
    have hlookup := lookup_of_findIdx?_none (hnames.symm ▸ Option.map_eq_none_iff.mp hslot)
    rw [Instruction.exec]
    cases hv : s.globals.get? x with
    | some v =>
        have hread : Eval.read x s = .ok v s := by rw [Eval.read, hlookup, hv]
        have hget : Exec.getGlobal x m = .ok v m := by rw [Exec.getGlobal, hm.globals, hv]
        rw [bind_of_ok hget, bind_of_ok hread]
        exact executes_push v hm
    | none =>
        have hread : Eval.read x s = .error (.fault (.undefinedVariable x)) s := by
          rw [Eval.read, hlookup, hv]
        have hget : Exec.getGlobal x m = .error (.fault (.undefinedVariable x)) m := by
          rw [Exec.getGlobal, hm.globals, hv]
        rw [bind_of_error hget, bind_of_error hread]
        exact ⟨rfl, hm.toAgrees⟩

/-- The value on top is stored and stays on top. -/
theorem simulates_write {v : Value}
    (h : c.Runs offset (access c.constants.toList scope .setLocal .setGlobal x :: rest))
    (hmem : ∀ v ∈ scope.nameConstant x, v ∈ c.constants.toList)
    (hroom : c.constants.toList.length ≤ Chunk.constantsMax)
    (hfew : scope.length ≤ Builder.localsMax) :
    c.Simulates before fuel ⟨offset, scope, v :: operands⟩ (Eval.write x v)
      fun _ => ⟨offset + 2, scope, v :: operands⟩ := by
  unfold access at h
  split at h
  · rename_i slot hslot
    obtain ⟨i, hi, hlt, hcount⟩ := Scope.findIdx?_of_slot? hslot hfew
    refine simulates_of_exec h (i := .setLocal slot) rfl fun m s hm => ?_
    have hnames : s.locals.map Prod.fst = scope := hm.names
    have hfound : (s.locals.map Prod.fst).findIdx? (· = x) = some i := hnames.symm ▸ hi
    obtain ⟨w, hlookup, -⟩ := lookup_of_findIdx? hfound
    obtain ⟨hsame, hvalues⟩ := map_update v hfound
    have hwrite : Eval.write x v s = .ok () { s with locals := Eval.update x v s.locals } := by
      rw [Eval.write, hlookup]
      rfl
    have hlength :
        (v :: operands ++ s.locals.map Prod.snd).length = operands.length + 1 + scope.length := by
      rw [List.length_append, List.length_map, hm.length_locals, List.length_cons]
    have hposition :
        operands.length + 1 + scope.length - 1 - (operands.length + 1 + i) = slot.toNat := by
      rw [hcount]
      omega
    have hin : operands.length + 1 + i < (v :: operands ++ s.locals.map Prod.snd).length := by
      rw [hlength]
      omega
    have hstore := Exec.store_of_holds hm.stack hin v
    have hholds := hm.stack.store hin v
    rw [hlength, hposition] at hstore hholds
    rw [Instruction.exec, bind_of_ok (Exec.peek_of_holds hm.stack), bind_of_ok hstore, hwrite]
    refine ⟨rfl, ⟨hm.globals, hm.written⟩, ?_, hsame.trans hm.names, hm.unlimited⟩
    dsimp only
    rw [hvalues]
    have hset : (v :: operands ++ s.locals.map Prod.snd).set (operands.length + 1 + i) v =
        v :: operands ++ (s.locals.map Prod.snd).set i v := by
      rw [List.set_append_right _ _ (by simp), List.length_cons, Nat.add_sub_cancel_left]
    rwa [hset] at hholds
  · rename_i hslot
    have hx := Scope.mem_of_slot?_none hslot hmem
    refine simulates_of_exec h (i := .setGlobal x)
      (by rw [Item.instruction?, getElem?_indexIn hx hroom]; rfl) fun m s hm => ?_
    have hnames : s.locals.map Prod.fst = scope := hm.names
    have hlookup := lookup_of_findIdx?_none (hnames.symm ▸ Option.map_eq_none_iff.mp hslot)
    rw [Instruction.exec, bind_of_ok (Exec.peek_of_holds hm.stack), Eval.write, hlookup]
    cases hv : s.globals.contains x with
    | true =>
        have hset : Exec.setGlobal x v m = .ok () { m with globals := m.globals.insert x v } := by
          rw [Exec.setGlobal, hm.globals, hv]
          rfl
        rw [bind_of_ok hset]
        exact ⟨rfl, ⟨congrArg (·.insert x v) hm.globals, hm.written⟩, hm.stack, hm.names,
          hm.unlimited⟩
    | false =>
        have hset : Exec.setGlobal x v m = .error (.fault (.undefinedVariable x)) m := by
          rw [Exec.setGlobal, hm.globals, hv]
          rfl
        rw [bind_of_error hset]
        exact ⟨rfl, hm.toAgrees⟩

/-- The value on top becomes that of a global. -/
theorem simulates_define {v : Value}
    (h : c.Runs offset (.operand .defineGlobal (indexIn c.constants.toList (.string x)) :: rest))
    (hmem : Value.string x ∈ c.constants.toList)
    (hroom : c.constants.toList.length ≤ Chunk.constantsMax) :
    c.Simulates before fuel ⟨offset, scope, v :: operands⟩ (Eval.declare true x v)
      fun _ => ⟨offset + 2, scope, operands⟩ := by
  refine simulates_of_exec h (i := .defineGlobal x)
    (by rw [Item.instruction?, getElem?_indexIn hmem hroom]; rfl) fun m s hm => ?_
  rw [Instruction.exec, bind_of_ok (Exec.pop_of_holds hm.stack)]
  exact ⟨rfl, ⟨congrArg (·.insert x v) hm.globals, hm.written⟩, hm.stack.drop, hm.names,
    hm.unlimited⟩

/-- The only operand becomes the innermost local, where it is. -/
theorem simulates_declare {v : Value} :
    c.Simulates before fuel ⟨offset, scope, [v]⟩ (Eval.declare false x v)
      fun _ => ⟨offset, x :: scope, []⟩ :=
  fun m _ hm => ⟨0, m, .nil, ⟨hm.globals, hm.written⟩, hm.stack, congrArg (x :: ·) hm.names,
    hm.unlimited⟩

end Chunk

end StackScript
