import StackScript.Proofs.Machine.Avoiding

/-!
Sinks with a limit and sinks without. Nothing but a print that does not fit can tell the one
from the other, so a run on a sink with a limit is the run on a sink without, cut off before
the first such print.
-/

namespace StackScript

namespace Machine

/-- The machine with another limit on what its sink takes. -/
def limitTo (m : Machine) (limit : Option Nat) : Machine :=
  { m with sink.limit := limit }

/-- The machine with a sink that takes every byte. -/
def unlimited (m : Machine) : Machine :=
  m.limitTo none

/-- The machine with a sink that takes so many bytes more. -/
def withRoom (m : Machine) (room : Nat) : Machine :=
  m.limitTo (some (m.sink.written.size + room))

/-- What is left of the machine when its sink has only taken the bytes up to the limit. -/
def cutTo (m : Machine) (limit : Nat) : Machine :=
  { m with sink := ⟨some limit, m.sink.written.extract 0 limit⟩ }

variable {m : Machine} {limit : Option Nat}

@[simp] theorem stack_limitTo : (m.limitTo limit).stack = m.stack := rfl

@[simp] theorem globals_limitTo : (m.limitTo limit).globals = m.globals := rfl

@[simp] theorem written_limitTo : (m.limitTo limit).sink.written = m.sink.written := rfl

@[simp] theorem limit_limitTo : (m.limitTo limit).sink.limit = limit := rfl

end Machine

/-- The same result, with another limit for the sink of the machine that is left. -/
def limitResult {ε α : Type} (limit : Option Nat) :
    EStateM.Result ε Machine α → EStateM.Result ε Machine α
  | .ok a m => .ok a (m.limitTo limit)
  | .error e m => .error e (m.limitTo limit)

namespace Exec

variable {α β : Type}

/-- An effect that does the same whatever the limit of the sink is. -/
def IgnoresLimit (x : Exec α) : Prop :=
  ∀ (m : Machine) (limit : Option Nat), x (m.limitTo limit) = limitResult limit (x m)

/-- What follows an effect is looked at on the machines that the effect leaves. -/
theorem bind_limitTo {x : Exec α} {f : α → Exec β} (hx : x.IgnoresLimit) (m : Machine)
    (limit : Option Nat) : (x >>= f) (m.limitTo limit) =
      match x m with
      | .ok a m' => f a (m'.limitTo limit)
      | .error stop m' => .error stop (m'.limitTo limit) := by
  show EStateM.bind x f (m.limitTo limit) = _
  unfold EStateM.bind
  rw [hx m limit]
  cases x m <;> rfl

theorem ignoresLimit_composes : Composes IgnoresLimit where
  pure _ _ _ := rfl
  raise _ _ _ := rfl
  returned _ _ := rfl
  bind {_ _ x f} hx hf m limit := by
    rw [bind_limitTo hx]
    show _ = limitResult limit (EStateM.bind x f m)
    unfold EStateM.bind
    cases x m with
    | ok a m' => exact hf a m' limit
    | error stop m' => rfl

theorem ignoresLimit_push (v : Value) : (push v).IgnoresLimit := by
  rintro ⟨stack, globals, sink⟩ limit
  dsimp only [push, Machine.limitTo]
  split
  · rfl
  · split <;> rfl

theorem ignoresLimit_pop : pop.IgnoresLimit := by
  rintro ⟨stack, globals, sink⟩ limit
  dsimp only [pop, Machine.limitTo]
  split
  · rfl
  · split <;> rfl

theorem ignoresLimit_peek : peek.IgnoresLimit := by
  rintro ⟨stack, globals, sink⟩ limit
  dsimp only [peek, Machine.limitTo]
  split
  · rfl
  · split <;> rfl

theorem ignoresLimit_load (slot : Nat) : (load slot).IgnoresLimit := by
  rintro ⟨stack, globals, sink⟩ limit
  dsimp only [load, Machine.limitTo]
  split <;> rfl

theorem ignoresLimit_store (slot : Nat) (v : Value) : (store slot v).IgnoresLimit := by
  rintro ⟨stack, globals, sink⟩ limit
  dsimp only [store, Machine.limitTo]
  split <;> rfl

theorem ignoresLimit_getGlobal (name : String) : (getGlobal name).IgnoresLimit := by
  rintro ⟨stack, globals, sink⟩ limit
  dsimp only [getGlobal, Machine.limitTo]
  split <;> rfl

theorem ignoresLimit_defineGlobal (name : String) (v : Value) :
    (defineGlobal name v).IgnoresLimit := fun _ _ => rfl

theorem ignoresLimit_setGlobal (name : String) (v : Value) : (setGlobal name v).IgnoresLimit := by
  rintro ⟨stack, globals, sink⟩ limit
  dsimp only [setGlobal, Machine.limitTo]
  split <;> rfl

section Write

variable {m : Machine} {limit : Nat} {bytes : Array UInt8}

theorem write_unlimited (hfree : m.sink.limit = none) (bytes : Array UInt8) :
    write bytes m = .ok () { m with sink.written := m.sink.written ++ bytes } := by
  rw [write_eq, Sink.write_of_unlimited m.sink bytes hfree]
  rfl

theorem write_of_fits (hfree : m.sink.limit = none)
    (hfits : m.sink.written.size + bytes.size ≤ limit) :
    write bytes (m.limitTo (some limit)) = limitResult (some limit) (write bytes m) := by
  have hroom : bytes.size ≤ limit - m.sink.written.size := by omega
  rw [write_unlimited hfree, write_eq]
  simp [Sink.write, hroom]
  rfl

/-- Of bytes that do not all fit, the sink takes those up to its limit. -/
theorem write_of_beyond (hwithin : m.sink.written.size ≤ limit)
    (hbeyond : limit < m.sink.written.size + bytes.size) :
    write bytes (m.limitTo (some limit)) =
      .error .outputClosed
        (Machine.cutTo { m with sink.written := m.sink.written ++ bytes } limit) := by
  have hroom : ¬ bytes.size ≤ limit - m.sink.written.size := by omega
  have hcut : (m.sink.written ++ bytes).extract 0 limit =
      m.sink.written ++ bytes.extract 0 (limit - m.sink.written.size) := by
    rw [Array.extract_append, Array.extract_eq_self_of_le hwithin, Nat.zero_sub]
  rw [write_eq]
  simp [Sink.write, hroom, Machine.cutTo, hcut]

end Write

end Exec

open Exec

/-- All instructions but the one that prints ignore the limit. -/
theorem Instruction.ignoresLimit_exec {i : Instruction} (hi : i ≠ .print) (next : Nat) :
    (i.exec next).IgnoresLimit := by
  refine Consists.exec (C := IgnoresLimit) ?_ ignoresLimit_composes next
  exact {
    push := ignoresLimit_push
    pop := ignoresLimit_pop
    peek := ignoresLimit_peek
    load := fun slot _ => ignoresLimit_load slot.toNat
    store := fun slot v _ => ignoresLimit_store slot.toNat v
    getGlobal := fun name _ => ignoresLimit_getGlobal name
    defineGlobal := fun name v _ => ignoresLimit_defineGlobal name v
    setGlobal := fun name v _ => ignoresLimit_setGlobal name v
    write := fun v hprint => absurd hprint hi }

/-- Nothing that has been written is taken back, and the limit of the sink stays. -/
theorem Instruction.harmless_written (i : Instruction) (written : Array UInt8)
    (limit : Option Nat) :
    i.Harmless fun m => written.toList <+: m.sink.written.toList ∧ m.sink.limit = limit := by
  refine ⟨fun _ _ _ h => h, fun _ _ h => h, fun _ _ _ _ h => h, fun _ _ _ _ h => h,
    fun _ _ _ _ _ h => h, ?_⟩
  rintro - m v ⟨hbegins, hlimit⟩
  have hgrows (bytes : Array UInt8) : written.toList <+: (m.sink.written ++ bytes).toList := by
    rw [Array.toList_append]
    exact hbegins.trans (List.prefix_append _ _)
  refine ⟨?_, (Sink.limit_write _ _).trans hlimit⟩
  unfold Sink.write
  split
  · exact hgrows _
  · dsimp only
    split
    · exact hgrows _
    · exact hgrows _

/-- An instruction that does not print writes nothing. -/
theorem Instruction.harmless_sink {i : Instruction} (hi : i ≠ .print) (sink : Sink) :
    i.Harmless fun m => m.sink = sink :=
  ⟨fun _ _ _ h => h, fun _ _ h => h, fun _ _ _ _ h => h, fun _ _ _ _ h => h,
    fun _ _ _ _ _ h => h, fun hprint => absurd hprint hi⟩

/-- Printing, step by step. -/
theorem Instruction.exec_print (next : Nat) (m : Machine) :
    Instruction.print.exec next m =
      match Exec.pop m with
      | .error stop m₁ => .error stop m₁
      | .ok v m₁ =>
          match Exec.write v.printed m₁ with
          | .error stop m₂ => .error stop m₂
          | .ok _ m₂ => .ok next m₂ := by
  show EStateM.bind Exec.pop (fun v => EStateM.bind (Exec.write v.printed) _) m = _
  unfold EStateM.bind
  cases Exec.pop m with
  | error stop m₁ => rfl
  | ok v m₁ =>
      dsimp only
      cases Exec.write v.printed m₁ <;> rfl

/-- A print on a sink that takes every byte, and the same on one with a limit. -/
theorem Instruction.print_limitTo {m : Machine} {limit : Nat} (hfree : m.sink.limit = none)
    (hwithin : m.sink.written.size ≤ limit) (next : Nat) :
    let r := Instruction.print.exec next m
    let r' := Instruction.print.exec next (m.limitTo (some limit))
    ((leftBy r).sink.written.size ≤ limit → r' = limitResult (some limit) r) ∧
      (limit < (leftBy r).sink.written.size → ∃ m', r = .ok next m' ∧ m'.globals = m.globals ∧
        r' = .error .outputClosed (m'.cutTo limit)) := by
  have hsink : (leftBy (Exec.pop m)).sink = m.sink :=
    keeps_pop (P := fun m₁ => m₁.sink = m.sink) (fun _ _ h => h) m rfl
  have hglobals : (leftBy (Exec.pop m)).globals = m.globals :=
    keeps_pop (P := fun m₁ => m₁.globals = m.globals) (fun _ _ h => h) m rfl
  dsimp only
  rw [exec_print, exec_print, ignoresLimit_pop m (some limit)]
  cases hpop : Exec.pop m with
  | error stop m₁ =>
      rw [hpop] at hsink
      refine ⟨fun _ => rfl, fun hbeyond => ?_⟩
      have hlt : limit < m₁.sink.written.size := hbeyond
      have hsame : m₁.sink = m.sink := hsink
      rw [hsame] at hlt
      exact absurd hwithin (Nat.not_le_of_lt hlt)
  | ok v m₁ =>
      rw [hpop] at hsink hglobals
      have hsame : m₁.sink = m.sink := hsink
      have hfree₁ : m₁.sink.limit = none := hsame ▸ hfree
      have hwithin₁ : m₁.sink.written.size ≤ limit := hsame ▸ hwithin
      dsimp only [limitResult]
      rw [write_unlimited hfree₁]
      dsimp only [leftBy]
      rw [Array.size_append]
      constructor
      · intro hfits
        rw [write_of_fits hfree₁ hfits, write_unlimited hfree₁]
        rfl
      · intro hbeyond
        rw [write_of_beyond hwithin₁ hbeyond]
        exact ⟨_, rfl, hglobals, rfl⟩

namespace Machine

variable {c : Chunk} {ip ip' : Nat} {m m' : Machine} {limit : Nat}

/-- No step changes the limit. -/
theorem limit_of_step (hfree : m.sink.limit = none) (hstep : m.step c ip = .ok ip' m') :
    m'.sink.limit = none :=
  (keeps_of_step (fun i _ => i.harmless_written m.sink.written none)
    ⟨List.prefix_rfl, hfree⟩ hstep).2

/-- A step on a sink that takes every byte is the step on one with a limit, as long as the
output fits. Only a print brings output that does not. -/
theorem step_limitTo (c : Chunk) (ip : Nat) (hfree : m.sink.limit = none)
    (hwithin : m.sink.written.size ≤ limit) :
    let r := m.step c ip
    let r' := (m.limitTo (some limit)).step c ip
    ((leftBy r).sink.written.size ≤ limit → r' = limitResult (some limit) r) ∧
      (limit < (leftBy r).sink.written.size → (c.fetch ip).result = .ok .print ∧
        ∃ ip' m', r = .ok ip' m' ∧ m'.globals = m.globals ∧
          r' = .error .outputClosed (m'.cutTo limit)) := by
  dsimp only
  cases hfetch : (c.fetch ip).result with
  | error f =>
      have hfails (m : Machine) :
          m.step c ip = .error (.failed ⟨f, c.lineBefore (c.fetch ip).next⟩) m := by
        simp only [step, hfetch]
      rw [hfails, hfails]
      exact ⟨fun _ => rfl, fun hbeyond => absurd hwithin (Nat.not_le_of_lt hbeyond)⟩
  | ok i =>
      rw [leftBy_step hfetch]
      simp only [step, hfetch]
      by_cases hi : i = .print
      · subst hi
        obtain ⟨hfits, hbeyond⟩ := Instruction.print_limitTo hfree hwithin (c.fetch ip).next
        constructor
        · intro hle
          rw [hfits hle]
          cases Instruction.print.exec (c.fetch ip).next m <;> rfl
        · intro hlt
          obtain ⟨m', hr, hglobals, hr'⟩ := hbeyond hlt
          rw [hr, hr']
          exact ⟨rfl, _, m', rfl, hglobals, rfl⟩
      · have hkept := i.keeps_exec (Instruction.harmless_sink hi m.sink) (c.fetch ip).next m rfl
        rw [Instruction.ignoresLimit_exec hi, hkept]
        refine ⟨fun _ => ?_, fun hbeyond => absurd hwithin (Nat.not_le_of_lt hbeyond)⟩
        cases i.exec (c.fetch ip).next m <;> rfl

end Machine

end StackScript
