import StackScript.Proofs.Simulation.Expression
import StackScript.Proofs.Compiler.Loop

/-!
Conditions, loops and scopes. A loop's code comes back to where it started with at least
one step, so every test that evaluation pays for with fuel is paid for with a step.
-/

namespace StackScript.Chunk

open Tree

variable {c : Chunk} {before : Array UInt8} {fuel offset : Nat} {scope inner : Scope}
  {rest : List Item}

/-- Expressions that may be absent, at a place where there is room for their locals and
constants. -/
structure HasOperands (c : Chunk) (scope : Scope) (e : Option Expr) : Prop where
  room : c.constants.toList.length ≤ Chunk.constantsMax
  few : scope.length ≤ Builder.localsMax
  constants : ∀ v ∈ optionalConstants scope e, v ∈ c.constants.toList

theorem HasOperands.simulates {e : Expr} (he : c.HasOperands scope (some e))
    (h : c.Runs offset (e.code c.constants.toList scope)) :
    c.Simulates before fuel ⟨offset, scope, []⟩ (e.eval 0)
      fun v => ⟨offset + codeSize (e.code c.constants.toList scope), scope, [v]⟩ :=
  simulates_expression e he.room he.few he.constants h

/-- An expression that is evaluated for its effects. -/
theorem simulates_discard {e : Expr} (he : c.HasOperands scope (some e))
    (h : c.Runs offset (e.code c.constants.toList scope ++ .plain .pop :: rest)) :
    c.Simulates before fuel ⟨offset, scope, []⟩ (discard (some e))
      fun _ => ⟨offset + codeSize (e.code c.constants.toList scope) + 1, scope, []⟩ :=
  (he.simulates h.left).bind fun _ => Simulates.pure (passes_pop h.right)

/-- A condition with the jump behind it. The value that decides is popped on either way. -/
theorem simulates_test {e : Expr} {distance : Nat} (he : c.HasOperands scope (some e))
    (h : c.Runs offset (e.code c.constants.toList scope ++
      .jump .jumpIfFalse distance :: .plain .pop :: rest))
    {less : List Item} (hless : c.Runs
      (offset + codeSize (e.code c.constants.toList scope) + 3 + distance) (.plain .pop :: less)) :
    c.Simulates before fuel ⟨offset, scope, []⟩ (holds (some e)) fun result =>
      ⟨offset + codeSize (e.code c.constants.toList scope) + (if result then 4 else 4 + distance),
        scope, []⟩ := by
  refine (he.simulates h.left).bind fun v => Simulates.pure (n := 1 + 1) ?_
  have hjump := @passes_jumpIfFalse c before _ scope [] _ _ h.right v
  cases hv : v.isFalsey with
  | true =>
      rw [hv] at hjump
      have hpop := @passes_pop c before _ scope [] _ v hless
      have hend : offset + codeSize (e.code c.constants.toList scope) + (4 + distance) =
          offset + codeSize (e.code c.constants.toList scope) + 3 + distance + 1 := by omega
      exact hend ▸ hjump.trans hpop
  | false =>
      rw [hv] at hjump
      exact hjump.trans (passes_pop h.right.tail)

/-- Where a loop's condition leads: behind it when it holds, else behind the loop. -/
theorem simulates_holds {condition : Option Expr} (he : c.HasOperands scope condition)
    (h : c.Runs offset (loopCode (condition.map (Expr.code c.constants.toList scope)) rest)) :
    c.Simulates before fuel ⟨offset, scope, []⟩ (holds condition) fun result =>
      ⟨offset + (if result then conditionSize (condition.map (Expr.code c.constants.toList scope))
        else codeSize (loopCode (condition.map (Expr.code c.constants.toList scope)) rest)),
        scope, []⟩ := by
  cases condition with
  | none => exact Simulates.pure Passes.refl
  | some e =>
      have hloop : c.Runs offset (e.code c.constants.toList scope ++
        (.jump .jumpIfFalse (1 + codeSize rest) :: .plain .pop :: rest) ++ [.plain .pop]) := h
      have htarget : offset + codeSize (e.code c.constants.toList scope ++
          (.jump .jumpIfFalse (1 + codeSize rest) :: .plain .pop :: rest)) =
          offset + codeSize (e.code c.constants.toList scope) + 3 + (1 + codeSize rest) := by
        simp only [codeSize_append, codeSize_cons, Item.size]
        omega
      refine (simulates_test he hloop.left (htarget ▸ hloop.right)).snoc (n := 0) fun result => ?_
      cases result with
      | true =>
          show c.Passes before 0 ⟨_ + 4, scope, []⟩ ⟨_ + (_ + 4), scope, []⟩
          rw [← Nat.add_assoc]
          exact Passes.refl
      | false =>
          have hend : offset + codeSize (loopCode (some (e.code c.constants.toList scope)) rest) =
              offset + codeSize (e.code c.constants.toList scope) + (4 + (1 + codeSize rest)) := by
            simp only [loopCode, codeSize_append, codeSize_cons, codeSize_nil, Item.size]
            omega
          show c.Passes before 0 _
            ⟨offset + codeSize (loopCode (some (e.code c.constants.toList scope)) rest), scope, []⟩
          rw [hend]
          exact Passes.refl

/-- One round of a loop, up to the jump that closes it. -/
theorem simulates_round {size : Nat} {body : Eval Unit} {items : List Item}
    {increment : Option Expr} (he : c.HasOperands scope increment)
    (h : c.Runs (offset + size)
      (stepCode size (increment.map (Expr.code c.constants.toList scope)) items))
    (hbody : ∀ offset, c.Runs offset items →
      c.Simulates before fuel ⟨offset, scope, []⟩ body fun _ =>
        ⟨offset + codeSize items, scope, []⟩) :
    ∃ last, c.Simulates before fuel ⟨offset + size, scope, []⟩ (do body; discard increment)
        (fun _ => ⟨last, scope, []⟩) ∧ c.Passes before 1 ⟨last, scope, []⟩ ⟨offset, scope, []⟩ := by
  cases increment with
  | none =>
      have hcode : c.Runs (offset + size) (items ++ [.jump .loop (size + codeSize items + 3)]) := h
      have hback := @passes_loop c before _ scope [] _ _ hcode.right (by omega)
      have hstart : offset + size + codeSize items + 3 - (size + codeSize items + 3) = offset := by
        omega
      rw [hstart] at hback
      exact ⟨_, (hbody _ hcode.left).bind fun _ => Simulates.pure Passes.refl, hback⟩
  | some e =>
      let code := e.code c.constants.toList scope
      let back := code ++ [.plain .pop, .jump .loop (size + 3 + codeSize code + 4)]
      have hcode : c.Runs (offset + size) (.jump .jump (codeSize back) :: (back ++
          (items ++ [.jump .loop (codeSize back + codeSize items + 3)]))) := by
        have hsplit := h
        simp only [Option.map_some, stepCode, List.cons_append] at hsplit
        exact hsplit
      have hsize : codeSize back = codeSize code + 4 := by
        simp [back, Item.size]
      have hafter : c.Runs (offset + size + 3) (back ++
        (items ++ [.jump .loop (codeSize back + codeSize items + 3)])) := hcode.tail
      have hincrement : c.Runs (offset + size + 3) (code ++ .plain .pop ::
        [.jump .loop (size + 3 + codeSize code + 4)]) := hafter.left
      have hforth := @passes_jump c before _ scope [] _ _ hcode
      have hback := @passes_loop c before _ scope [] _ _ hafter.right.right (by omega)
      have hagain : offset + size + 3 + codeSize back + codeSize items + 3 -
          (codeSize back + codeSize items + 3) = offset + size + 3 := by omega
      rw [hagain] at hback
      have hlast : c.Runs (offset + size + 3 + codeSize code + 1)
        [.jump .loop (size + 3 + codeSize code + 4)] := hincrement.right.tail
      have hclose := @passes_loop c before _ scope [] _ _ hlast (by omega)
      have hstart :
          offset + size + 3 + codeSize code + 1 + 3 - (size + 3 + codeSize code + 4) = offset := by
        omega
      rw [hstart] at hclose
      refine ⟨offset + size + 3 + codeSize code + 1, ?_, hclose⟩
      refine Simulates.passes hforth ?_
      refine ((hbody _ hafter.right.left).snoc fun _ => hback).bind fun _ => ?_
      exact simulates_discard he hincrement

/-- A loop. Evaluation that has run out of fuel has paid for as many rounds. -/
theorem simulates_iterate {condition : Eval Bool} {body : Eval Unit} {middle last stop : Nat}
    (hcondition : c.Simulates before fuel ⟨offset, scope, []⟩ condition
      fun result => ⟨if result then middle else stop, scope, []⟩)
    (hbody : c.Simulates before fuel ⟨middle, scope, []⟩ body fun _ => ⟨last, scope, []⟩)
    (hback : c.Passes before 1 ⟨last, scope, []⟩ ⟨offset, scope, []⟩) (rounds : Nat)
    (hfuel : rounds ≤ fuel) :
    c.Simulates before rounds ⟨offset, scope, []⟩ (Eval.iterate condition body rounds)
      fun _ => ⟨stop, scope, []⟩ := by
  induction rounds with
  | zero => exact fun m _ _ => ⟨0, offset, m, Nat.le_refl 0, .nil⟩
  | succ rounds ih =>
      refine (hcondition.mono hfuel).bind fun result => ?_
      cases result with
      | true =>
          refine (hbody.mono hfuel).bind fun _ => ?_
          have hagain := Simulates.after hback (ih (Nat.le_of_succ_le hfuel))
          rwa [Nat.add_comm] at hagain
      | false => exact Simulates.pure Passes.refl

theorem Runs.behindCondition {test : Option (List Item)} (h : c.Runs offset (loopCode test rest)) :
    c.Runs (offset + conditionSize test) rest := by
  cases test with
  | none => exact h
  | some code =>
      have hloop : c.Runs offset (code ++
        (.jump .jumpIfFalse (1 + codeSize rest) :: .plain .pop :: rest) ++ [.plain .pop]) := h
      exact hloop.left.right.tail.tail

/-- A whole loop with what belongs to each round. -/
theorem simulates_loop {body : Eval Unit} {items : List Item} {condition increment : Option Expr}
    (hcondition : c.HasOperands scope condition) (hincrement : c.HasOperands scope increment)
    (h : c.Runs offset (loopCode (condition.map (Expr.code c.constants.toList scope))
      (stepCode (conditionSize (condition.map (Expr.code c.constants.toList scope)))
        (increment.map (Expr.code c.constants.toList scope)) items)))
    (hbody : ∀ offset, c.Runs offset items →
      c.Simulates before fuel ⟨offset, scope, []⟩ body fun _ =>
        ⟨offset + codeSize items, scope, []⟩) :
    c.Simulates before fuel ⟨offset, scope, []⟩
      (Eval.iterate (holds condition) (do body; discard increment) fuel)
      fun _ => ⟨offset + codeSize (loopCode (condition.map (Expr.code c.constants.toList scope))
        (stepCode (conditionSize (condition.map (Expr.code c.constants.toList scope)))
          (increment.map (Expr.code c.constants.toList scope)) items)), scope, []⟩ := by
  obtain ⟨last, hround, hback⟩ := simulates_round hincrement h.behindCondition hbody
  refine simulates_iterate ?_ hround hback fuel (Nat.le_refl fuel)
  refine (simulates_holds hcondition h).snoc (n := 0) fun result => ?_
  cases result <;> exact Passes.refl

/-- As many pops as there are values on the stack. -/
theorem passes_pops (values : List Value)
    (h : c.Runs offset (List.replicate values.length (.plain .pop) ++ rest)) :
    c.Passes before values.length ⟨offset, scope, values⟩ ⟨offset + values.length, scope, []⟩ := by
  induction values generalizing offset with
  | nil => exact Passes.refl
  | cons v values ih =>
      have hpops :
          c.Runs offset (.plain .pop :: (List.replicate values.length (.plain .pop) ++ rest)) := h
      have hrest := (@passes_pop c before _ scope values _ v hpops).trans (ih hpops.tail)
      rw [Nat.add_comm 1, Nat.add_assoc, Nat.add_comm 1] at hrest
      exact hrest

/-- A scope is left by popping the locals that it has beyond the outer one. -/
theorem simulates_inScope {body : Eval Unit} {middle : Nat}
    (hbody : c.Simulates before fuel ⟨offset, scope, []⟩ body fun _ => ⟨middle, inner, []⟩)
    (h : c.Runs middle (leave scope inner)) (hinner : ∃ added, inner = added ++ scope) :
    c.Simulates before fuel ⟨offset, scope, []⟩ (Eval.inScope body)
      fun _ => ⟨middle + codeSize (leave scope inner), scope, []⟩ := by
  obtain ⟨added, rfl⟩ := hinner
  intro m s hm
  have hlength : s.locals.length = scope.length := hm.length_locals
  have hopened : Eval.inScope body s = (do
      body
      modify fun s => { s with locals := s.locals.drop (s.locals.length - scope.length) } :
      Eval Unit) s := by
    rw [← hlength]
    rfl
  rw [hopened]
  refine hbody.bind (fun _ => ?_) m s hm
  intro m s hm
  have hall : s.locals.length = added.length + scope.length := by
    rw [hm.length_locals, List.length_append]
  let values := (s.locals.take added.length).map Prod.snd
  have hcount : values.length = added.length := by
    rw [List.length_map, List.length_take, hall, Nat.min_eq_left (Nat.le_add_right ..)]
  have hleave :
      leave scope (added ++ scope) = List.replicate values.length (.plain .pop) ++ [] := by
    rw [leave, List.length_append, Nat.add_sub_cancel, hcount, List.append_nil]
  have hsize : codeSize (leave scope (added ++ scope)) = values.length := by
    rw [hleave, List.append_nil]
    simp [codeSize, Item.size]
  have hdrop : s.locals.length - scope.length = added.length := by rw [hall, Nat.add_sub_cancel]
  have hmirrors : m.Mirrors before ⟨middle, scope, values⟩
      { s with locals := s.locals.drop (s.locals.length - scope.length) } := by
    rw [hdrop]
    refine ⟨⟨hm.globals, hm.written⟩, ?_, ?_, hm.unlimited⟩
    · show m.stack.Holds (values ++ (s.locals.drop added.length).map Prod.snd)
      rw [← List.map_append, List.take_append_drop]
      exact hm.stack
    · have hnames : s.locals.map Prod.fst = added ++ scope := hm.names
      show (s.locals.drop added.length).map Prod.fst = scope
      rw [List.map_drop, hnames, List.drop_left]
  rw [hsize]
  rw [hleave] at h
  obtain ⟨m', hpath, hm'⟩ := passes_pops values h m _ hmirrors
  exact ⟨_, m', hpath, hm'⟩

end StackScript.Chunk
