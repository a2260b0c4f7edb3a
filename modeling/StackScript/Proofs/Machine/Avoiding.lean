import StackScript.Proofs.Machine.Keeping

/-!
Reasons to stop that are never met. Faults and returns come from the instructions themselves; the
other two reasons come from outside, and on a machine of the right kind they do not come at all.
-/

namespace StackScript

/-- The reason is neither a fault nor a return. -/
def Stop.Outer : Stop → Prop
  | .returned | .fault _ => False
  | .outputClosed | .outOfRange => True

namespace Stop.Outer

variable {reason : Stop} (h : reason.Outer)
include h

theorem ne_fault (f : Fault) : .fault f ≠ reason := by
  rintro rfl
  exact h

theorem ne_returned : .returned ≠ reason := by
  rintro rfl
  exact h

/-- Such a reason can be told from the outcome. -/
theorem outcome_ne {stop : Stop} (hne : stop ≠ reason) (line : Nat) :
    stop.outcome line ≠ reason.outcome 0 := by
  cases reason with
  | returned | fault f => exact h.elim
  | outputClosed | outOfRange => cases stop <;> first | exact absurd rfl hne | nofun

end Stop.Outer

namespace Exec

variable {α : Type} {P : Machine → Prop} {reason : Stop}

/-- From a machine of which `P` holds the effect leaves one of which it holds, and does not stop
for this reason. -/
def Avoids (P : Machine → Prop) (reason : Stop) (x : Exec α) : Prop :=
  ∀ m, P m → P (leftBy (x m)) ∧ ∀ m', x m ≠ .error reason m'

theorem avoids_composes (hreason : reason.Outer) : Composes fun x => x.Avoids P reason where
  pure _ _ h := ⟨h, nofun⟩
  raise f m h := by
    refine ⟨h, fun m' hstops => ?_⟩
    exact hreason.ne_fault f (EStateM.Result.error.inj hstops).1
  returned m h := by
    refine ⟨h, fun m' hstops => ?_⟩
    exact hreason.ne_returned (EStateM.Result.error.inj hstops).1
  bind {_ _ x f} hx hf m h := by
    have hfirst := hx m h
    show P (leftBy (EStateM.bind x f m)) ∧ ∀ m', EStateM.bind x f m ≠ .error reason m'
    unfold EStateM.bind
    generalize x m = r at hfirst ⊢
    cases r with
    | ok a m' => exact hf a m' hfirst.1
    | error stop m' =>
        refine ⟨hfirst.1, fun m'' hstops => ?_⟩
        obtain ⟨rfl, rfl⟩ := EStateM.Result.error.inj hstops
        exact hfirst.2 _ rfl

end Exec

namespace Machine

variable {P : Machine → Prop} {reason : Stop} {c : Chunk} {n ip ip' : Nat} {m m' : Machine}
  {outcome : Outcome} (hreason : reason.Outer)
  (havoids : ∀ (i : Instruction) (next : Nat), (i.exec next).Avoids P reason)
include hreason havoids

/-- What no instruction stops for, no step stops for. -/
theorem avoids_step (c : Chunk) (ip : Nat) (hm : P m) :
    P (leftBy (m.step c ip)) ∧ ∀ outcome m', m.step c ip = .error outcome m' →
      outcome ≠ reason.outcome 0 := by
  cases hfetch : (c.fetch ip).result with
  | error f =>
      have hstep : m.step c ip = .error (.failed ⟨f, c.lineBefore (c.fetch ip).next⟩) m := by
        simp only [step, hfetch]
      rw [hstep]
      refine ⟨hm, fun outcome m' hstops => ?_⟩
      obtain ⟨rfl, -⟩ := EStateM.Result.error.inj hstops
      exact hreason.outcome_ne (hreason.ne_fault f) _
  | ok i =>
      obtain ⟨hkept, hstop⟩ := havoids i (c.fetch ip).next m hm
      rw [leftBy_step hfetch]
      refine ⟨hkept, fun outcome m' hstops => ?_⟩
      simp only [step, hfetch] at hstops
      generalize i.exec (c.fetch ip).next m = r at hstop hstops
      cases r with
      | ok next m'' => cases hstops
      | error stop m'' =>
          obtain ⟨rfl, rfl⟩ := EStateM.Result.error.inj hstops
          apply hreason.outcome_ne
          rintro rfl
          exact hstop _ rfl

theorem avoids_of_path (hm : P m) (hpath : c.Path n ip m ip' m') : P m' := by
  refine hpath.preserves (P := fun _ m => P m) (fun ip m ip' m' _ hm hstep => ?_) hm
  have hkept := (avoids_step hreason havoids c ip hm).1
  rwa [hstep] at hkept

theorem avoids_of_ends (hm : P m) (hends : c.Ends ip m outcome m') :
    P m' ∧ outcome ≠ reason.outcome 0 := by
  cases hends with
  | past _ => exact ⟨hm, hreason.outcome_ne hreason.ne_returned 0⟩
  | unlisted hlt hnone =>
      obtain ⟨line, hline⟩ := Option.isSome_iff_exists.mp (c.isSome_instructionLine? hlt)
      simp [records?, hline] at hnone
  | stopped _ hstep =>
      have hkept := avoids_step hreason havoids c ip hm
      rw [hstep] at hkept
      exact ⟨hkept.1, hkept.2 _ _ rfl⟩

end Machine

end StackScript
