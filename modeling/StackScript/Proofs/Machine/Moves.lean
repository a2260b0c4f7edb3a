import Mathlib.Tactic.Common
import StackScript.Machine.Step

/-!
What an effect does to the height of the stack. An effect takes some values and leaves some
others, or faults; it only faults for want of values if there are fewer than it takes. Only
the instruction that returns ends a run without a fault.
-/

namespace StackScript

/-- Faults that come from malformed code. -/
def Fault.Malformed : Fault → Prop
  | .unknownOpcode _ | .truncatedInstruction | .invalidConstant _ | .invalidJump => True
  | _ => False

namespace Exec

variable {α β : Type}

/-- What has become of a machine when an effect takes `pops` values, leaves `pushes` others
and has a result of which `P` holds. -/
def Moved (m : Machine) (pops pushes : Nat) (P : α → Prop) : EStateM.Result Stop Machine α → Prop
  | .ok a m' => P a ∧ pops ≤ m.stack.height ∧ m'.stack.height + pops = m.stack.height + pushes
  | .error (.fault f) _ => ¬ f.Malformed ∧ (f = .stackUnderflow → m.stack.height < pops)
  | .error stop _ => stop ≠ .returned

def Moves (x : Exec α) (pops pushes : Nat) (P : α → Prop) : Prop :=
  ∀ m, Moved m pops pushes P (x m)

theorem Moves.bind {x : Exec α} {f : α → Exec β} {p q p' q' pops pushes : Nat} {Q : α → Prop}
    {P : β → Prop} (hx : x.Moves p q Q) (hf : ∀ a, Q a → (f a).Moves p' q' P)
    (hpops : pops = p + (p' - q)) (hpushes : pushes = q' + (q - p')) :
    (x >>= f).Moves pops pushes P := by
  subst hpops hpushes
  intro m
  have hfirst := hx m
  show Moved m _ _ P (EStateM.bind x f m)
  unfold EStateM.bind
  cases hrun : x m with
  | error stop m' =>
      rw [hrun] at hfirst
      cases stop with
      | fault fault => exact ⟨hfirst.1, fun hunder => by have := hfirst.2 hunder; omega⟩
      | _ => exact hfirst
  | ok a m' =>
      rw [hrun] at hfirst
      obtain ⟨ha, henough, hheight⟩ := hfirst
      have hsecond := hf a ha m'
      dsimp only
      cases hrest : f a m' with
      | error stop m'' =>
          rw [hrest] at hsecond
          cases stop with
          | fault fault => exact ⟨hsecond.1, fun hunder => by have := hsecond.2 hunder; omega⟩
          | _ => exact hsecond
      | ok b m'' =>
          rw [hrest] at hsecond
          obtain ⟨hb, henough', hheight'⟩ := hsecond
          exact ⟨hb, by omega, by omega⟩

theorem moves_pure {a : α} {P : α → Prop} (ha : P a) : (pure a : Exec α).Moves 0 0 P :=
  fun _ => ⟨ha, Nat.zero_le _, rfl⟩

theorem moves_raise {f : Fault} (hproper : ¬ f.Malformed) (hunder : f ≠ .stackUnderflow)
    (pops pushes : Nat) (P : α → Prop) : (raise f : Exec α).Moves pops pushes P :=
  fun _ => ⟨hproper, fun h => absurd h hunder⟩

theorem moves_push (v : Value) : (push v).Moves 0 1 fun _ => True := by
  intro m
  unfold push
  split
  · exact ⟨id, nofun⟩
  · split
    · exact ⟨trivial, Nat.zero_le _, rfl⟩
    · exact nofun

theorem moves_pop : pop.Moves 1 0 fun _ => True := by
  intro m
  unfold pop
  split
  · rename_i hempty
    exact ⟨id, fun _ => by omega⟩
  · split
    · refine ⟨trivial, by omega, ?_⟩
      simp only [Stack.drop]
      omega
    · show Stop.outOfRange ≠ .returned
      decide

theorem moves_peek : peek.Moves 1 1 fun _ => True := by
  intro m
  unfold peek
  split
  · exact ⟨id, fun _ => by omega⟩
  · split
    · exact ⟨trivial, by omega, rfl⟩
    · exact nofun

theorem moves_load (slot : Nat) : (load slot).Moves 0 0 fun _ => True := by
  intro m
  unfold load
  split
  · exact ⟨trivial, Nat.zero_le _, rfl⟩
  · exact nofun

theorem moves_store (slot : Nat) (v : Value) : (store slot v).Moves 0 0 fun _ => True := by
  intro m
  unfold store
  split
  · exact ⟨trivial, Nat.zero_le _, rfl⟩
  · exact nofun

theorem moves_getGlobal (name : String) : (getGlobal name).Moves 0 0 fun _ => True := by
  intro m
  unfold getGlobal
  split
  · exact ⟨trivial, Nat.zero_le _, rfl⟩
  · exact ⟨id, nofun⟩

theorem moves_defineGlobal (name : String) (v : Value) :
    (defineGlobal name v).Moves 0 0 fun _ => True :=
  fun _ => ⟨trivial, Nat.zero_le _, rfl⟩

theorem moves_setGlobal (name : String) (v : Value) :
    (setGlobal name v).Moves 0 0 fun _ => True := by
  intro m
  unfold setGlobal
  split
  · exact ⟨trivial, Nat.zero_le _, rfl⟩
  · exact ⟨id, nofun⟩

theorem moves_write (bytes : Array UInt8) : (write bytes).Moves 0 0 fun _ => True := by
  intro m
  rw [write_eq]
  split
  · exact ⟨trivial, Nat.zero_le _, rfl⟩
  · exact nofun

/-- What is done with the topmost value. -/
theorem moves_operand {f : Value → Exec α} {pushes : Nat} {P : α → Prop}
    (hf : ∀ v, (f v).Moves 0 pushes P) : (pop >>= f).Moves 1 pushes P :=
  moves_pop.bind (fun v _ => hf v) rfl rfl

/-- What is done with the two topmost values, of which the right one comes first. -/
theorem moves_operands {f : Value → Value → Exec α} {pushes : Nat} {P : α → Prop}
    (hf : ∀ left right, (f left right).Moves 0 pushes P) :
    (pop >>= fun right => pop >>= fun left => f left right).Moves 2 pushes P :=
  moves_pop.bind (fun right _ => moves_operand fun left => hf left right) rfl
    (by omega)

theorem moves_arithmetic (f : Number → Number → Value) :
    (arithmetic f).Moves 2 1 fun _ => True := by
  unfold arithmetic
  refine moves_operands fun left right => ?_
  split
  · exact moves_push _
  · exact moves_raise id (by decide) _ _ _

theorem moves_add : add.Moves 2 1 fun _ => True := by
  unfold add
  refine moves_operands fun left right => ?_
  split
  · exact moves_push _
  · exact moves_push _
  · exact moves_raise id (by decide) _ _ _

end Exec

namespace Instruction

open Exec

/-- How many values an instruction takes. -/
def pops : Instruction → Nat
  | .equal | .greater | .less | .add | .subtract | .multiply | .divide => 2
  | .pop | .setLocal _ | .defineGlobal _ | .setGlobal _ | .not | .negate | .print
  | .jumpIfFalse _ => 1
  | _ => 0

/-- How many values an instruction leaves in their place. -/
def pushes : Instruction → Nat
  | .push _ | .getLocal _ | .setLocal _ | .getGlobal _ | .setGlobal _ | .equal | .greater | .less
  | .add | .subtract | .multiply | .divide | .not | .negate | .jumpIfFalse _ => 1
  | _ => 0

/-- The offsets that an instruction can go on at. -/
def targets (next : Nat) : Instruction → List Nat
  | .jump distance => [next + distance]
  | .jumpIfFalse distance => [next + distance, next]
  | .loop distance => [next - distance]
  | .ret => []
  | _ => [next]

theorem moves_then {x : Exec Unit} {p q : Nat} (hx : x.Moves p q fun _ => True) (next : Nat) :
    (do x; return next : Exec Nat).Moves p q (· ∈ [next]) :=
  hx.bind (fun _ _ => moves_pure (List.mem_singleton_self next)) (by simp) (by simp)

/-- Every instruction but the one that returns moves the stack as it should and goes on at
one of its targets, as long as it does not jump back too far. -/
theorem exec_moves (i : Instruction) (next : Nat) (hstays : i ≠ .ret)
    (hback : ∀ distance, i = .loop distance → distance ≤ next) :
    (i.exec next).Moves i.pops i.pushes (· ∈ i.targets next) := by
  have hnext : next ∈ [next] := List.mem_singleton_self next
  cases i with
  | push v => exact moves_then (moves_push v) next
  | pop => exact moves_operand fun _ => moves_pure hnext
  | getLocal slot => exact (moves_load _).bind (fun v _ => moves_then (moves_push v) next) rfl rfl
  | setLocal slot => exact moves_peek.bind (fun v _ => moves_then (moves_store _ v) next) rfl rfl
  | getGlobal name =>
      exact (moves_getGlobal name).bind (fun v _ => moves_then (moves_push v) next) rfl rfl
  | defineGlobal name => exact moves_operand fun v => moves_then (moves_defineGlobal name v) next
  | setGlobal name =>
      exact moves_peek.bind (fun v _ => moves_then (moves_setGlobal name v) next) rfl rfl
  | equal =>
      exact moves_operands fun left right => moves_then (moves_push _) next
  | greater | less | subtract | multiply | divide => exact moves_then (moves_arithmetic _) next
  | add => exact moves_then moves_add next
  | not => exact moves_operand fun v => moves_then (moves_push _) next
  | negate =>
      refine moves_operand fun v => ?_
      split
      · exact moves_then (moves_push _) next
      · exact moves_raise id (by decide) _ _ _
  | print => exact moves_operand fun v => moves_then (moves_write _) next
  | jump distance => exact moves_pure (List.mem_singleton_self _)
  | jumpIfFalse distance =>
      refine moves_peek.bind (fun v _ => moves_pure ?_) rfl rfl
      cases v.isFalsey <;> simp [targets]
  | loop distance =>
      have hgoes : (loop distance).exec next = pure (next - distance) := if_pos (hback distance rfl)
      rw [hgoes]
      exact moves_pure (List.mem_singleton_self _)
  | ret => exact absurd rfl hstays

end Instruction

end StackScript
