import StackScript.Proofs.Simulation.Basic

/-!
Single instructions. Each one does what an operation on the store does, from every machine
that mirrors the store.
-/

namespace StackScript

open Tree

namespace Exec

variable {m : Machine} {values : List Value} {v : Value}

theorem push_of_holds (h : m.stack.Holds values) (v : Value) :
    push v m = if values.length < Stack.capacity then .ok () { m with stack := m.stack.push v }
      else .error (.fault .stackOverflow) m := by
  have hle := h.length_le
  unfold push
  rw [h.height, h.slots]
  split
  · rw [if_neg (by omega)]
  · rw [if_pos (by omega), if_pos (by omega)]

theorem pop_of_holds (h : m.stack.Holds (v :: values)) :
    pop m = .ok v { m with stack := m.stack.drop } := by
  unfold pop
  rw [if_neg h.height_ne_zero, h.top]

theorem peek_of_holds (h : m.stack.Holds (v :: values)) : peek m = .ok v m := by
  unfold peek
  rw [if_neg h.height_ne_zero, h.top]

theorem load_of_holds (h : m.stack.Holds values) {i : Nat} (hi : values[i]? = some v) :
    load (values.length - 1 - i) m = .ok v m := by
  have hlt : i < values.length := (List.getElem?_eq_some_iff.mp hi).1
  unfold load
  rw [h.getElem? hlt, hi]

theorem store_of_holds (h : m.stack.Holds values) {i : Nat} (hi : i < values.length) (v : Value) :
    store (values.length - 1 - i) v m =
      .ok () { m with stack := m.stack.store (values.length - 1 - i) v } := by
  unfold store
  rw [if_pos (by rw [h.slots]; have := h.length_le; omega)]

/-- A result is pushed where operands have been taken away. -/
theorem push_result (h : m.stack.Holds values) (hroom : values.length < Stack.capacity) (v : Value)
    (next : Nat) :
    (do push v; return next : Exec Nat) m = .ok next { m with stack := m.stack.push v } := by
  have hpush := push_of_holds h v
  rw [if_pos hroom] at hpush
  rw [bind_of_ok hpush]
  rfl

/-- Two values are taken from the stack before their kinds are looked at. -/
theorem pop_pop_of_holds {w : Value} (h : m.stack.Holds (w :: v :: values)) {β : Type}
    (f : Value → Value → Exec β) :
    (do let right ← pop; let left ← pop; f left right : Exec β) m =
      f v w { m with stack := m.stack.drop.drop } := by
  rw [bind_of_ok (pop_of_holds h)]
  exact bind_of_ok (pop_of_holds (m := { m with stack := m.stack.drop }) h.drop)

end Exec

namespace Chunk

variable {c : Chunk} {before : Array UInt8} {fuel offset : Nat} {scope : Scope}
  {operands : List Value} {rest : List Item}

section Values

/-- A value that is pushed is held. -/
theorem executes_push {p : Point} {next : Nat} {m : Machine} {s : Store} (v : Value)
    (hm : m.Mirrors before p s) :
    Executes before (fun v => ⟨next, p.scope, v :: p.operands⟩) (Instruction.exec next (.push v) m)
      (Eval.hold p.operands.length v s) := by
  have hlength :
      (p.operands ++ s.locals.map Prod.snd).length = s.locals.length + p.operands.length := by
    rw [List.length_append, List.length_map, Nat.add_comm]
  have hpush := Exec.push_of_holds hm.stack v
  rw [hlength] at hpush
  unfold Eval.hold
  split
  · rename_i hroom
    rw [if_pos hroom] at hpush
    rw [Instruction.exec, bind_of_ok hpush]
    exact ⟨rfl, hm.withStack rfl (hm.stack.push (hlength ▸ hroom) v)⟩
  · rename_i hfull
    rw [if_neg hfull] at hpush
    rw [Instruction.exec, bind_of_error hpush]
    exact ⟨rfl, hm.toAgrees⟩

theorem simulates_push {item : Item} {v : Value} (h : c.Runs offset (item :: rest))
    (hi : item.instruction? c.constants.toList = some (.push v)) :
    c.Simulates before fuel ⟨offset, scope, operands⟩ (Eval.hold operands.length v)
      fun v => ⟨offset + item.size, scope, v :: operands⟩ :=
  simulates_of_exec h hi fun _ _ hm => executes_push v hm

theorem simulates_constant {v : Value}
    (h : c.Runs offset (.operand .constant (indexIn c.constants.toList v) :: rest))
    (hmem : v ∈ c.constants.toList) (hroom : c.constants.toList.length ≤ Chunk.constantsMax) :
    c.Simulates before fuel ⟨offset, scope, operands⟩ (Eval.hold operands.length v)
      fun v => ⟨offset + 2, scope, v :: operands⟩ :=
  simulates_push h (by rw [Item.instruction?, getElem?_indexIn hmem hroom]; rfl)

/-- A value on top is popped. -/
theorem passes_pop {v : Value} (h : c.Runs offset (.plain .pop :: rest)) :
    c.Passes before 1 ⟨offset, scope, v :: operands⟩ ⟨offset + 1, scope, operands⟩ := by
  refine passes_of_exec h (i := .pop) rfl fun m s hm => ?_
  refine ⟨{ m with stack := m.stack.drop }, ?_, hm.withStack rfl hm.stack.drop⟩
  rw [Instruction.exec, bind_of_ok (Exec.pop_of_holds hm.stack)]
  rfl

theorem simulates_print {v : Value} (h : c.Runs offset (.plain .print :: rest)) :
    c.Simulates before fuel ⟨offset, scope, v :: operands⟩ (Eval.print v)
      fun _ => ⟨offset + 1, scope, operands⟩ := by
  refine simulates_of_exec h (i := .print) rfl fun m s hm => ?_
  have hwrite : Exec.write v.printed { m with stack := m.stack.drop } =
      .ok () ⟨m.stack.drop, m.globals, { m.sink with written := m.sink.written ++ v.printed }⟩ := by
    rw [Exec.write_eq, Sink.write_of_unlimited _ _ hm.unlimited, if_pos rfl]
  rw [Instruction.exec, bind_of_ok (Exec.pop_of_holds hm.stack), bind_of_ok hwrite]
  refine ⟨rfl, ⟨hm.globals, ?_⟩, hm.stack.drop, hm.names, hm.unlimited⟩
  show m.sink.written ++ v.printed = before ++ (s.output ++ v.printed)
  rw [hm.written, Array.append_assoc]

end Values

section Jumps

variable {distance : Nat}

theorem passes_jump (h : c.Runs offset (.jump .jump distance :: rest)) :
    c.Passes before 1 ⟨offset, scope, operands⟩ ⟨offset + 3 + distance, scope, operands⟩ :=
  passes_of_exec h (i := .jump distance) rfl fun m _ hm => ⟨m, rfl, hm.elsewhere _⟩

/-- The value that decides stays on top. -/
theorem passes_jumpIfFalse (h : c.Runs offset (.jump .jumpIfFalse distance :: rest)) (v : Value) :
    c.Passes before 1 ⟨offset, scope, v :: operands⟩
      ⟨if v.isFalsey then offset + 3 + distance else offset + 3, scope, v :: operands⟩ := by
  refine passes_of_exec h (i := .jumpIfFalse distance) rfl fun m s hm => ⟨m, ?_, hm.elsewhere _⟩
  rw [Instruction.exec, bind_of_ok (Exec.peek_of_holds hm.stack)]
  rfl

theorem passes_loop (h : c.Runs offset (.jump .loop distance :: rest))
    (hback : distance ≤ offset + 3) :
    c.Passes before 1 ⟨offset, scope, operands⟩ ⟨offset + 3 - distance, scope, operands⟩ := by
  have hgoes : Instruction.exec (offset + 3) (.loop distance) = pure (offset + 3 - distance) :=
    if_pos hback
  exact passes_of_exec h (i := .loop distance) rfl fun m _ hm =>
    ⟨m, congrFun hgoes m, hm.elsewhere _⟩

end Jumps

section Operators

variable {v w : Value}

theorem simulates_unary {op : UnaryOp} (h : c.Runs offset (.plain op.opcode :: rest)) :
    c.Simulates before fuel ⟨offset, scope, v :: operands⟩ (op.apply v)
      fun v => ⟨offset + 1, scope, v :: operands⟩ := by
  have hresult {m : Machine} {s : Store} (w : Value)
      (hm : m.Mirrors before ⟨offset, scope, v :: operands⟩ s) :
      Executes before (fun v => ⟨offset + 1, scope, v :: operands⟩)
        ((do Exec.push w; return offset + 1 : Exec Nat) { m with stack := m.stack.drop })
          (.ok w s) := by
    have hpush := Exec.push_result (m := { m with stack := m.stack.drop }) hm.stack.drop
      hm.stack.length_le w (offset + 1)
    rw [hpush]
    exact ⟨rfl, hm.withStack rfl (hm.stack.drop.push hm.stack.length_le w)⟩
  cases op with
  | not =>
      refine simulates_of_exec h (i := .not) rfl fun m s hm => ?_
      rw [Instruction.exec, bind_of_ok (Exec.pop_of_holds hm.stack)]
      exact hresult _ hm
  | negate =>
      refine simulates_of_exec h (i := .negate) rfl fun m s hm => ?_
      rw [Instruction.exec, bind_of_ok (Exec.pop_of_holds hm.stack)]
      cases v with
      | number x => exact hresult _ hm
      | _ => exact ⟨rfl, hm.globals, hm.written⟩

/-- What an operator on numbers gives. -/
def numbers (f : Number → Number → Value) : Value → Value → Eval Value
  | .number x, .number y => return f x y
  | _, _ => Eval.raise .operandsMustBeNumbers

/-- A result in the place of two operands. -/
theorem executes_result {m : Machine} {s : Store}
    (hm : m.Mirrors before ⟨offset, scope, w :: v :: operands⟩ s) (next : Nat) (result : Value) :
    Executes before (fun v => ⟨next, scope, v :: operands⟩)
      ((do Exec.push result; return next : Exec Nat) { m with stack := m.stack.drop.drop })
      (.ok result s) := by
  have hholds := hm.stack.drop.drop
  have hroom := Nat.lt_of_succ_lt hm.stack.length_le
  have hpush := Exec.push_result (m := { m with stack := m.stack.drop.drop }) hholds hroom result
    next
  rw [hpush]
  exact ⟨rfl, hm.withStack rfl (hholds.push hroom result)⟩

theorem simulates_arithmetic {op : Opcode} {i : Instruction} {f : Number → Number → Value}
    (h : c.Runs offset (.plain op :: rest))
    (hi : Item.instruction? c.constants.toList (.plain op) = some i)
    (hexec : ∀ next, i.exec next = do Exec.arithmetic f; return next) :
    c.Simulates before fuel ⟨offset, scope, w :: v :: operands⟩ (numbers f v w)
      fun v => ⟨offset + 1, scope, v :: operands⟩ := by
  refine simulates_of_exec h hi fun m s hm => ?_
  have hpops : Exec.arithmetic f m = _ := Exec.pop_pop_of_holds hm.stack _
  rw [hexec, bind_of_eq hpops]
  cases v with
  | number x =>
      cases w with
      | number y => exact executes_result hm _ (f x y)
      | _ => exact ⟨rfl, hm.globals, hm.written⟩
  | _ => exact ⟨rfl, hm.globals, hm.written⟩

theorem simulates_add (h : c.Runs offset (.plain .add :: rest)) :
    c.Simulates before fuel ⟨offset, scope, w :: v :: operands⟩ (BinaryOp.add.apply v w)
      fun v => ⟨offset + 1, scope, v :: operands⟩ := by
  refine simulates_of_exec h (i := .add) rfl fun m s hm => ?_
  have hpops : Exec.add m = _ := Exec.pop_pop_of_holds hm.stack _
  rw [Instruction.exec, bind_of_eq hpops]
  cases v with
  | number x =>
      cases w with
      | number y => exact executes_result hm _ (.number (x + y))
      | _ => exact ⟨rfl, hm.globals, hm.written⟩
  | string t =>
      cases w with
      | string u => exact executes_result hm _ (.string (t ++ u))
      | _ => exact ⟨rfl, hm.globals, hm.written⟩
  | _ => exact ⟨rfl, hm.globals, hm.written⟩

theorem simulates_equal (h : c.Runs offset (.plain .equal :: rest)) :
    c.Simulates before fuel ⟨offset, scope, w :: v :: operands⟩ (BinaryOp.equal.apply v w)
      fun v => ⟨offset + 1, scope, v :: operands⟩ := by
  refine simulates_of_exec h (i := .equal) rfl fun m s hm => ?_
  have hpops : Instruction.exec (offset + 1) .equal m = _ := Exec.pop_pop_of_holds hm.stack _
  exact hpops ▸ executes_result hm (offset + 1) (.bool (v.equal w))

/-- An operator that negates another one. -/
theorem simulates_negated {op other : BinaryOp} {code : Opcode}
    (happly : op.apply v w = do let r ← other.apply v w; UnaryOp.not.apply r)
    (hother : c.Simulates before fuel ⟨offset, scope, w :: v :: operands⟩ (other.apply v w)
      fun v => ⟨offset + 1, scope, v :: operands⟩)
    (h : c.Runs offset (.plain code :: .plain .not :: rest)) :
    c.Simulates before fuel ⟨offset, scope, w :: v :: operands⟩ (op.apply v w)
      fun v => ⟨offset + 2, scope, v :: operands⟩ := by
  rw [happly]
  exact hother.bind fun r => simulates_unary h.tail

theorem simulates_less (h : c.Runs offset (.plain .less :: rest)) :
    c.Simulates before fuel ⟨offset, scope, w :: v :: operands⟩ (BinaryOp.less.apply v w)
      fun v => ⟨offset + 1, scope, v :: operands⟩ := by
  have happly : BinaryOp.less.apply v w = numbers (fun x y => .bool (x < y)) v w := by
    cases v <;> cases w <;> rfl
  rw [happly]
  exact simulates_arithmetic (i := .less) h rfl fun _ => rfl

theorem simulates_greater (h : c.Runs offset (.plain .greater :: rest)) :
    c.Simulates before fuel ⟨offset, scope, w :: v :: operands⟩ (BinaryOp.greater.apply v w)
      fun v => ⟨offset + 1, scope, v :: operands⟩ := by
  have happly : BinaryOp.greater.apply v w = numbers (fun x y => .bool (x > y)) v w := by
    cases v <;> cases w <;> rfl
  rw [happly]
  exact simulates_arithmetic (i := .greater) h rfl fun _ => rfl

theorem simulates_binary {op : BinaryOp} (h : c.Runs offset (op.opcodes.map .plain ++ rest)) :
    c.Simulates before fuel ⟨offset, scope, w :: v :: operands⟩ (op.apply v w)
      fun v => ⟨offset + codeSize (op.opcodes.map .plain), scope, v :: operands⟩ := by
  cases op with
  | equal => exact simulates_equal h
  | notEqual => exact simulates_negated rfl (simulates_equal h) h
  | greater => exact simulates_greater h
  | greaterEqual =>
      refine simulates_negated ?_ (simulates_less h) h
      cases v <;> cases w <;> rfl
  | less => exact simulates_less h
  | lessEqual =>
      refine simulates_negated ?_ (simulates_greater h) h
      cases v <;> cases w <;> rfl
  | add => exact simulates_add h
  | subtract =>
      have happly : BinaryOp.subtract.apply v w = numbers (fun x y => .number (x - y)) v w := by
        cases v <;> cases w <;> rfl
      rw [happly]
      exact simulates_arithmetic (i := .subtract) h rfl fun _ => rfl
  | multiply =>
      have happly : BinaryOp.multiply.apply v w = numbers (fun x y => .number (x * y)) v w := by
        cases v <;> cases w <;> rfl
      rw [happly]
      exact simulates_arithmetic (i := .multiply) h rfl fun _ => rfl
  | divide =>
      have happly : BinaryOp.divide.apply v w = numbers (fun x y => .number (x / y)) v w := by
        cases v <;> cases w <;> rfl
      rw [happly]
      exact simulates_arithmetic (i := .divide) h rfl fun _ => rfl

end Operators

end Chunk

end StackScript
