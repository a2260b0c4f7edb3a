import Mathlib.Tactic.Common
import StackScript.Machine.Step

/-!
Instructions as compositions. Each of them does a few basic effects one after the other, on the
slot or the name that it is about, so a property that the basic effects have and that sequences
keep is a property of the instruction.
-/

namespace StackScript

namespace Exec

/-- A property of effects that holds of those that do nothing but give a result, fault or return,
and of a sequence if it holds of its parts. -/
structure Composes (C : ∀ {α : Type}, Exec α → Prop) : Prop where
  pure : ∀ {α : Type} (a : α), C (pure a : Exec α)
  raise : ∀ {α : Type} (f : Fault), C (raise f : Exec α)
  returned : ∀ {α : Type}, C (throw .returned : Exec α)
  bind : ∀ {α β : Type} {x : Exec α} {f : α → Exec β}, C x → (∀ a, C (f a)) → C (x >>= f)

end Exec

/-- The basic effects that an instruction is made of have a property. -/
structure Instruction.Consists (i : Instruction) (C : ∀ {α : Type}, Exec α → Prop) : Prop where
  push : ∀ v, C (Exec.push v)
  pop : C Exec.pop
  peek : C Exec.peek
  load : ∀ slot, i = .getLocal slot → C (Exec.load slot.toNat)
  store : ∀ slot v, i = .setLocal slot → C (Exec.store slot.toNat v)
  getGlobal : ∀ name, i = .getGlobal name → C (Exec.getGlobal name)
  defineGlobal : ∀ name v, i = .defineGlobal name → C (Exec.defineGlobal name v)
  setGlobal : ∀ name v, i = .setGlobal name → C (Exec.setGlobal name v)
  write : ∀ v, i = .print → C (Exec.write (Value.printed v))

namespace Exec.Composes

variable {C : ∀ {α : Type}, Exec α → Prop} (h : Composes C)
include h

theorem andThen {x : Exec Unit} (hx : C x) (next : Nat) : C (do x; return next : Exec Nat) :=
  h.bind hx fun _ => h.pure next

variable (hpop : C pop) (hpush : ∀ v, C (push v))
include hpop hpush

theorem arithmetic (f : Number → Number → Value) : C (arithmetic f) := by
  apply h.bind hpop
  intro right
  apply h.bind hpop
  intro left
  split
  · exact hpush _
  · exact h.raise _

theorem add : C add := by
  apply h.bind hpop
  intro right
  apply h.bind hpop
  intro left
  split
  · exact hpush _
  · exact hpush _
  · exact h.raise _

end Exec.Composes

/-- An instruction has a property of the effects that it consists of. -/
theorem Instruction.Consists.exec {C : ∀ {α : Type}, Exec α → Prop} {i : Instruction}
    (hi : i.Consists C) (h : Exec.Composes C) (next : Nat) : C (i.exec next) := by
  cases i with
  | push v => exact h.andThen (hi.push v) next
  | pop => exact h.bind hi.pop fun _ => h.pure next
  | getLocal slot => exact h.bind (hi.load slot rfl) fun v => h.andThen (hi.push v) next
  | setLocal slot => exact h.bind hi.peek fun v => h.andThen (hi.store slot v rfl) next
  | getGlobal name => exact h.bind (hi.getGlobal name rfl) fun v => h.andThen (hi.push v) next
  | defineGlobal name => exact h.bind hi.pop fun v => h.andThen (hi.defineGlobal name v rfl) next
  | setGlobal name => exact h.bind hi.peek fun v => h.andThen (hi.setGlobal name v rfl) next
  | equal =>
      apply h.bind hi.pop
      intro right
      apply h.bind hi.pop
      intro left
      exact h.andThen (hi.push _) next
  | greater | less | subtract | multiply | divide =>
      exact h.andThen (h.arithmetic hi.pop hi.push _) next
  | add => exact h.andThen (h.add hi.pop hi.push) next
  | not => exact h.bind hi.pop fun v => h.andThen (hi.push _) next
  | negate =>
      apply h.bind hi.pop
      intro v
      split
      · exact h.andThen (hi.push _) next
      · exact h.raise _
  | print => exact h.bind hi.pop fun v => h.andThen (hi.write v rfl) next
  | jump distance => exact h.pure _
  | jumpIfFalse distance => exact h.bind hi.peek fun v => h.pure _
  | loop distance =>
      show C
        (if distance ≤ next then pure (next - distance) else Exec.raise .invalidJump : Exec Nat)
      split
      · exact h.pure _
      · exact h.raise _
  | ret => exact h.returned

end StackScript
