import StackScript.Proofs.Simulation.Variable

/-!
The code of an expression does what evaluation does, and leaves the value on top of the
operands that wait.
-/

namespace StackScript.Chunk

open Tree

variable {c : Chunk} {before : Array UInt8} {fuel offset : Nat} {scope : Scope}
  {operands : List Value}

theorem codeSize_access (pool : List Value) (scope : Scope) (onLocal onGlobal : Opcode)
    (x : String) :
    codeSize [access pool scope onLocal onGlobal x] = 2 := by
  unfold access
  split <;> rfl

/-- Code that is passed over while the value on top counts as true or as false. -/
theorem simulates_choice {v : Value} {stop distance : Nat} {rest : List Item} {x : Eval Value}
    (h : c.Runs offset (.jump .jumpIfFalse distance :: rest))
    (hfalse : v.isFalsey = true →
      c.Simulates before fuel ⟨offset + 3 + distance, scope, v :: operands⟩ x
      fun v => ⟨stop, scope, v :: operands⟩)
    (htrue : v.isFalsey = false → c.Simulates before fuel ⟨offset + 3, scope, v :: operands⟩ x
      fun v => ⟨stop, scope, v :: operands⟩) :
    c.Simulates before fuel ⟨offset, scope, v :: operands⟩ x
      fun v => ⟨stop, scope, v :: operands⟩ := by
  have hjump := @passes_jumpIfFalse c before _ scope operands _ _ h v
  cases hv : v.isFalsey with
  | true =>
      rw [hv] at hjump
      exact (hfalse hv).passes hjump
  | false =>
      rw [hv] at hjump
      exact (htrue hv).passes hjump

theorem simulates_expression (e : Expr) (hroom : c.constants.toList.length ≤ Chunk.constantsMax)
    (hfew : scope.length ≤ Builder.localsMax)
    (hmem : ∀ v ∈ e.constants scope, v ∈ c.constants.toList)
    (h : c.Runs offset (e.code c.constants.toList scope)) :
    c.Simulates before fuel ⟨offset, scope, operands⟩ (e.eval operands.length)
      fun v => ⟨offset + codeSize (e.code c.constants.toList scope), scope, v :: operands⟩ := by
  induction e generalizing offset operands with
  | nil => exact simulates_push h rfl
  | bool b => cases b <;> exact simulates_push h rfl
  | number literal => exact simulates_constant h (hmem _ (List.mem_singleton_self _)) hroom
  | string s => exact simulates_constant h (hmem _ (List.mem_singleton_self _)) hroom
  | name x =>
      rw [Expr.code, codeSize_access]
      exact simulates_read h hmem hroom hfew
  | assign x value ih =>
      obtain ⟨hname, hvalue⟩ := List.forall_mem_append.mp hmem
      rw [Expr.code, codeSize_append, codeSize_access, ← Nat.add_assoc]
      refine (ih hvalue h.left).bind fun v => ?_
      exact (simulates_write h.right hname hroom hfew).bind fun _ => Simulates.pure Passes.refl
  | unary op operand ih =>
      rw [Expr.code, codeSize_append, ← Nat.add_assoc]
      exact (ih hmem h.left).bind fun v => simulates_unary h.right
  | binary op left right ihl ihr =>
      obtain ⟨hl, hr⟩ := List.forall_mem_append.mp hmem
      rw [Expr.code, codeSize_append, codeSize_append, ← Nat.add_assoc, ← Nat.add_assoc]
      refine (ihl hl h.left).bind fun v => (ihr hr h.right.left).bind fun w => ?_
      have hop := h.right.right
      rw [← List.append_nil (op.opcodes.map Item.plain)] at hop
      exact simulates_binary hop
  | and left right ihl ihr =>
      obtain ⟨hl, hr⟩ := List.forall_mem_append.mp hmem
      rw [Expr.code, codeSize_append, codeSize_cons, codeSize_cons, ← Nat.add_assoc,
        ← Nat.add_assoc, ← Nat.add_assoc]
      refine (ihl hl h.left).bind fun v => simulates_choice h.right (fun hv => ?_) fun hv => ?_
      · rw [if_pos hv, codeSize_cons, ← Nat.add_assoc]
        exact Simulates.pure Passes.refl
      · rw [if_neg (Bool.eq_false_iff.mp hv)]
        exact (ihr hr h.right.tail.tail).passes (passes_pop h.right.tail)
  | or left right ihl ihr =>
      obtain ⟨hl, hr⟩ := List.forall_mem_append.mp hmem
      rw [Expr.code, codeSize_append, codeSize_cons, codeSize_cons, codeSize_cons, ← Nat.add_assoc,
        ← Nat.add_assoc, ← Nat.add_assoc, ← Nat.add_assoc]
      refine (ihl hl h.left).bind fun v => simulates_choice h.right (fun hv => ?_) fun hv => ?_
      · rw [if_pos hv]
        exact (ihr hr h.right.tail.tail.tail).passes (passes_pop h.right.tail.tail)
      · rw [if_neg (Bool.eq_false_iff.mp hv)]
        have hjump := @passes_jump c before _ scope (v :: operands) _ _ h.right.tail
        rw [codeSize_cons, ← Nat.add_assoc] at hjump
        exact Simulates.pure hjump
  | group inner ih => exact ih hmem h

end StackScript.Chunk
