import StackScript.Proofs.Isolation
import StackScript.Proofs.Machine.Bounds

/-!
Any chunk is safe to run. Chunks made by hand can jump into operands or out of the code, break off
within an instruction, have other lines than code, and use the stack as no compiled text would. A
machine that a session comes to runs them all without an access out of range, traced or not.
-/

namespace StackScript

/-- On a machine of a session, whatever has run there before, any chunk leaves the stack all of its
slots and a height among them after every instruction, and no access is out of range: not to the
stack, and while the run is traced, not to the code and the constants that a record shows either,
at an offset within an instruction as at the start of one. If the run comes to an end, it has
finished, or with a runtime error, or with one of the output, and the stack is empty. -/
theorem run_in_range {m : Machine} (h : m.Reached) (c : Chunk) (tracing : Bool) :
    (∀ n, let r := (Run.start c tracing m).advance n
      r.machine.stack.slots.size = Stack.capacity ∧ r.machine.stack.height ≤ Stack.capacity ∧
        r.outcome ≠ some .outOfRange) ∧
      ∀ fuel m' failure log, m.runChunk fuel tracing c = some (m', failure, log) →
        (failure = none ∨ (∃ e, failure = some (.runtime e)) ∨ failure = some .output) ∧
          m'.stack.slots.size = Stack.capacity ∧ m'.stack.height = 0 := by
  have hready := h.ready
  have hbounded : m.stack.Bounded := .of_empty hready.1 hready.2
  constructor
  · intro n r
    rcases Run.path_of_go (c := c) tracing n 0 m #[] with
      ⟨hnone, hpath⟩ | ⟨outcome, k, m₁, houtcome, -, hpath, hends⟩
    · have hlast : r.machine.stack.Bounded := Machine.bounded_of_path hbounded hpath
      have hgoes : r.outcome = none := hnone
      exact ⟨hlast.slots, hlast.height, by rw [hgoes]; nofun⟩
    · have hstops : r.outcome = some outcome := houtcome
      have hbefore := Machine.bounded_of_path hbounded hpath
      obtain ⟨hlast, hproper⟩ : r.machine.stack.Bounded ∧ outcome ≠ .outOfRange :=
        Machine.bounded_of_ends hbefore hends
      exact ⟨hlast.slots, hlast.height, by rwa [hstops, Ne, Option.some.injEq]⟩
  · intro fuel m' failure log hruns
    have hready' := Machine.ready_of_runChunk hready.1 hruns
    obtain ⟨n, ip, m₁, m₂, outcome, -, hpath, hends, -, rfl⟩ := Machine.ends_of_runChunk hruns
    have hbefore := Machine.bounded_of_path hbounded hpath
    obtain ⟨-, hproper⟩ := Machine.bounded_of_ends hbefore hends
    refine ⟨?_, hready'⟩
    cases outcome with
    | finished => exact Or.inl rfl
    | failed e => exact Or.inr (Or.inl ⟨e, rfl⟩)
    | outputClosed => exact Or.inr (Or.inr rfl)
    | outOfRange => exact absurd rfl hproper

/-- Code without lines that jumps into an operand, which is the opcode of one more jump, cut off. -/
theorem run_in_range_malformed :
    let c : Chunk := { code := #[Opcode.jump.toByte, 0, 1, Opcode.constant.toByte,
      Opcode.loop.toByte] }
    ({} : Machine).Reached ∧ ∀ tracing,
      (∀ n, let r := (Run.start c tracing {}).advance n
        r.machine.stack.slots.size = Stack.capacity ∧ r.machine.stack.height ≤ Stack.capacity ∧
          r.outcome ≠ some .outOfRange) ∧
        ∀ fuel m' failure log, ({} : Machine).runChunk fuel tracing c = some (m', failure, log) →
          (failure = none ∨ (∃ e, failure = some (.runtime e)) ∨ failure = some .output) ∧
            m'.stack.slots.size = Stack.capacity ∧ m'.stack.height = 0 :=
  ⟨.fresh {}, fun tracing => run_in_range (.fresh {}) _ tracing⟩

end StackScript
