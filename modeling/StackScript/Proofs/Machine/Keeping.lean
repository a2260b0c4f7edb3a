import Mathlib.Tactic.Common
import StackScript.Proofs.Machine.Composing
import StackScript.Proofs.Machine.Path

/-!
What instructions keep. An instruction changes a machine by a few small changes: a value is
pushed or dropped, and at most one slot, one variable or the output changes besides. What all
of these keep, the instruction keeps, also when it stops half way.
-/

namespace StackScript

/-- The machine that is left behind, by success and by failure alike. -/
def leftBy {ε α : Type} : EStateM.Result ε Machine α → Machine
  | .ok _ m => m
  | .error _ m => m

namespace Exec

variable {α : Type} {P : Machine → Prop}

/-- Whatever comes of the effect, `P` holds of the machine again. -/
def Keeps (P : Machine → Prop) (x : Exec α) : Prop :=
  ∀ m, P m → P (leftBy (x m))

theorem keeps_composes : Composes fun x => x.Keeps P where
  pure _ _ h := h
  raise _ _ h := h
  returned _ h := h
  bind {_ _ x f} hx hf m h := by
    have hfirst := hx m h
    show P (leftBy (EStateM.bind x f m))
    unfold EStateM.bind
    generalize x m = r at hfirst ⊢
    cases r with
    | ok a m' => exact hf a m' hfirst
    | error stop m' => exact hfirst

theorem keeps_push
    (hpush : ∀ m v, m.stack.height < m.stack.slots.size → P m →
      P { m with stack := m.stack.push v })
    (v : Value) : (push v).Keeps P := by
  intro m h
  unfold push
  split
  · exact h
  · split
    · exact hpush m v ‹_› h
    · exact h

theorem keeps_pop
    (hdrop : ∀ m, m.stack.height ≠ 0 → P m → P { m with stack := m.stack.drop }) :
    pop.Keeps P := by
  intro m h
  unfold pop
  split
  · exact h
  · split
    · exact hdrop m ‹_› h
    · exact h

theorem keeps_peek : peek.Keeps P := by
  intro m h
  unfold peek
  split
  · exact h
  · split <;> exact h

theorem keeps_load (slot : Nat) : (load slot).Keeps P := by
  intro m h
  unfold load
  split <;> exact h

theorem keeps_store {slot : Nat}
    (hstore : ∀ m v, P m → P { m with stack := m.stack.store slot v }) (v : Value) :
    (store slot v).Keeps P := by
  intro m h
  unfold store
  split
  · exact hstore m v h
  · exact h

theorem keeps_getGlobal (name : String) : (getGlobal name).Keeps P := by
  intro m h
  unfold getGlobal
  split <;> exact h

theorem keeps_setGlobal {name : String}
    (hinsert : ∀ m v, m.globals.contains name → P m →
      P { m with globals := m.globals.insert name v }) (v : Value) :
    (setGlobal name v).Keeps P := by
  intro m h
  unfold setGlobal
  split
  · exact hinsert m v ‹_› h
  · exact h

theorem keeps_write {bytes : Array UInt8}
    (hwrite : ∀ m, P m → P { m with sink := (m.sink.write bytes).1 }) :
    (write bytes).Keeps P := by
  intro m h
  rw [write_eq]
  split <;> exact hwrite m h

end Exec

open Exec

/-- The small changes that `i` is made of keep `P`. -/
structure Instruction.Harmless (i : Instruction) (P : Machine → Prop) : Prop where
  push : ∀ m v, m.stack.height < m.stack.slots.size → P m → P { m with stack := m.stack.push v }
  drop : ∀ m, m.stack.height ≠ 0 → P m → P { m with stack := m.stack.drop }
  store : ∀ slot, i = .setLocal slot → ∀ m v, P m →
    P { m with stack := m.stack.store slot.toNat v }
  define : ∀ name, i = .defineGlobal name → ∀ m v, P m →
    P { m with globals := m.globals.insert name v }
  set : ∀ name, i = .setGlobal name → ∀ m v, m.globals.contains name → P m →
    P { m with globals := m.globals.insert name v }
  write : i = .print → ∀ m v, P m → P { m with sink := (m.sink.write (Value.printed v)).1 }

/-- An instruction keeps what its changes keep. -/
theorem Instruction.keeps_exec {i : Instruction} {P : Machine → Prop} (h : i.Harmless P)
    (next : Nat) :
    (i.exec next).Keeps P := by
  refine Consists.exec (C := fun x => x.Keeps P) ?_ keeps_composes next
  exact {
    push := keeps_push h.push
    pop := keeps_pop h.drop
    peek := keeps_peek
    load := fun slot _ => keeps_load slot.toNat
    store := fun slot v hi => keeps_store (h.store slot hi) v
    getGlobal := fun name _ => keeps_getGlobal name
    defineGlobal := fun name v hi m hm => h.define name hi m v hm
    setGlobal := fun name v hi => keeps_setGlobal (h.set name hi) v
    write := fun v hi => keeps_write fun m => h.write hi m v }

namespace Machine

variable {P : Machine → Prop} {c : Chunk} {ip ip' : Nat} {m m' : Machine} {outcome : Outcome}

/-- A step leaves the machine that the instruction leaves. -/
theorem leftBy_step {i : Instruction} (hfetch : (c.fetch ip).result = .ok i) (m : Machine) :
    leftBy (m.step c ip) = leftBy (i.exec (c.fetch ip).next m) := by
  unfold step
  dsimp only
  rw [hfetch]
  dsimp only
  cases i.exec (c.fetch ip).next m <;> rfl

/-- A step keeps what the instruction keeps that it fetches, if it fetches one. -/
theorem keeps_step (h : ∀ i, (c.fetch ip).result = .ok i → i.Harmless P) (hm : P m) :
    P (leftBy (m.step c ip)) := by
  cases hfetch : (c.fetch ip).result with
  | error f =>
      have hstep : m.step c ip = .error (.failed ⟨f, c.lineBefore (c.fetch ip).next⟩) m := by
        simp only [step, hfetch]
      rw [hstep]
      exact hm
  | ok i =>
      rw [leftBy_step hfetch]
      exact Instruction.keeps_exec (h i hfetch) (c.fetch ip).next m hm

theorem keeps_of_step (h : ∀ i, (c.fetch ip).result = .ok i → i.Harmless P) (hm : P m)
    (hstep : m.step c ip = .ok ip' m') : P m' := by
  have hkept := keeps_step h hm
  rwa [hstep] at hkept

theorem keeps_of_ends (h : ∀ i, (c.fetch ip).result = .ok i → i.Harmless P) (hm : P m)
    (hends : c.Ends ip m outcome m') : P m' := by
  cases hends with
  | past _ => exact hm
  | unlisted _ _ => exact hm
  | stopped _ hstep =>
      have hkept := keeps_step h hm
      rwa [hstep] at hkept

/-- What the instructions fetched on the way keep, the way keeps. `Q` tells where it can lead. -/
theorem keeps_of_path {Q : Nat → Prop} {n : Nat}
    (hleads : ∀ (ip : Nat) (m : Machine) (ip' : Nat) (m' : Machine),
      Q ip → m.step c ip = .ok ip' m' → Q ip')
    (h : ∀ ip, Q ip → ∀ i, (c.fetch ip).result = .ok i → i.Harmless P)
    (hstart : Q ip) (hm : P m) (hpath : c.Path n ip m ip' m') : Q ip' ∧ P m' := by
  refine hpath.preserves (P := fun ip m => Q ip ∧ P m) ?_ ⟨hstart, hm⟩
  rintro ip m ip' m' - ⟨hq, hm⟩ hstep
  exact ⟨hleads ip m ip' m' hq hstep, keeps_of_step (h ip hq) hm hstep⟩

end Machine

end StackScript
