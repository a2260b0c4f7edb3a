import StackScript.Proofs.Isolation
import StackScript.Proofs.Machine.Keeping

/-!
What a run leaves on the stack. Emptying the stack clears the slots in use, and a slot that goes
out of use has been cleared. So the only values left behind are those that the code has stored into
slots not in use, which compiled code never does.
-/

namespace StackScript

/-- All the slots are there, and this one holds nothing while it is not in use. -/
structure Stack.Clear (s : Stack) (slot : UInt8) : Prop where
  whole : s.slots.size = capacity
  unused : s.height ≤ slot.toNat → s.slots[slot.toNat]? = some .nil

namespace Stack.Clear

variable {s : Stack} {slot : UInt8}

theorem empty (slot : UInt8) : Stack.empty.Clear slot := by
  refine ⟨size_slots_empty, fun _ => ?_⟩
  have hlt : slot.toNat < capacity := slot.toNat_lt
  rw [Stack.empty, Array.getElem?_replicate, if_pos hlt]

theorem lt_size (h : s.Clear slot) : slot.toNat < s.slots.size :=
  h.whole ▸ slot.toNat_lt

theorem push (h : s.Clear slot) (v : Value) : (s.push v).Clear slot := by
  refine ⟨(s.size_slots_push v).trans h.whole, fun hunused => ?_⟩
  have habove : s.height < slot.toNat := hunused
  rw [Stack.push, Array.getElem?_setIfInBounds_ne (Nat.ne_of_lt habove)]
  exact h.unused (Nat.le_of_lt habove)

theorem drop (h : s.Clear slot) : s.drop.Clear slot := by
  refine ⟨s.size_slots_drop.trans h.whole, fun hunused => ?_⟩
  have habove : s.height - 1 ≤ slot.toNat := hunused
  rw [Stack.drop, Array.getElem?_setIfInBounds]
  split
  · rename_i htop
    rw [if_pos (htop ▸ h.lt_size)]
  · exact h.unused (by omega)

/-- A store is harmless to every other slot, and to a slot in use. -/
theorem store (h : s.Clear slot) {other : UInt8} (hother : other = slot → slot.toNat < s.height)
    (v : Value) : (s.store other.toNat v).Clear slot := by
  refine ⟨(s.size_slots_store other.toNat v).trans h.whole, fun hunused => ?_⟩
  have hne : other.toNat ≠ slot.toNat := by
    intro heq
    exact absurd (hother (UInt8.toNat_inj.mp heq)) (Nat.not_lt.mpr hunused)
  rw [Stack.store, Array.getElem?_setIfInBounds_ne hne]
  exact h.unused hunused

/-- Emptying the stack clears every slot that is clear while it is not in use. -/
theorem reset (h : s.Clear slot) : s.reset.slots[slot.toNat]? = some .nil := by
  rw [Stack.reset, Array.getElem?_mapIdx, Array.getElem?_eq_getElem h.lt_size, Option.map_some]
  split
  · rfl
  · rename_i hunused
    rw [← Array.getElem?_eq_getElem h.lt_size]
    exact h.unused (Nat.not_lt.mp hunused)

end Stack.Clear

/-- A whole and empty stack in which every slot is clear is the empty stack. -/
theorem Stack.eq_empty {s : Stack} (hwhole : s.slots.size = capacity) (hheight : s.height = 0)
    (hclear : ∀ slot : UInt8, s.slots[slot.toNat]? = some .nil) : s = .empty := by
  obtain ⟨slots, height⟩ := s
  obtain rfl : height = 0 := hheight
  have hslots : slots = Array.replicate capacity .nil := by
    apply Array.ext_getElem?
    intro i
    rcases Nat.lt_or_ge i capacity with hlt | hge
    · have hslot := hclear (UInt8.ofNat i)
      rw [UInt8.toNat_ofNat_of_lt' hlt] at hslot
      rw [hslot, Array.getElem?_replicate, if_pos hlt]
    · rw [Array.getElem?_eq_none (hwhole.trans_le hge), Array.getElem?_eq_none (by simpa using hge)]
  rw [hslots]
  rfl

/-- On its way from `m` the code stores into the slot while that is not in use. -/
def Chunk.StoresUnused (c : Chunk) (m : Machine) (slot : UInt8) : Prop :=
  ∃ n ip m', c.Path n 0 m ip m' ∧ (c.fetch ip).result = .ok (.setLocal slot) ∧
    m'.stack.height ≠ 0 ∧ m'.stack.height ≤ slot.toNat

/-- A store leaves the machine as it was, or with one slot changed. -/
theorem Instruction.leftBy_setLocal (slot : UInt8) (next : Nat) (m : Machine) :
    leftBy ((setLocal slot).exec next m) = m ∨ m.stack.height ≠ 0 ∧
      ∃ v, leftBy ((setLocal slot).exec next m) =
        { m with stack := m.stack.store slot.toNat v } := by
  rw [show (setLocal slot).exec next = (do let v ← Exec.peek; Exec.store slot.toNat v; return next)
    from rfl]
  by_cases hempty : m.stack.height = 0
  · left
    simp [bind, EStateM.bind, Exec.peek, hempty, leftBy]
  · cases htop : m.stack.slots[m.stack.height - 1]? with
    | none =>
        left
        simp [bind, EStateM.bind, Exec.peek, hempty, htop, leftBy]
    | some v =>
        by_cases hslot : slot.toNat < m.stack.slots.size
        · right
          refine ⟨hempty, v, ?_⟩
          simp [bind, EStateM.bind, Exec.peek, Exec.store, hempty, htop, hslot, leftBy, pure,
            EStateM.pure]
        · left
          simp [bind, EStateM.bind, Exec.peek, Exec.store, hempty, htop, hslot, leftBy]

/-- Whatever is not a store to the slot keeps it clear. -/
theorem Instruction.harmless_clear {i : Instruction} {slot : UInt8} (hi : i ≠ .setLocal slot) :
    i.Harmless fun m => m.stack.Clear slot where
  push _ v _ h := h.push v
  drop _ _ h := h.drop
  store other hother m v h := by
    refine h.store ?_ v
    rintro rfl
    exact absurd hother hi
  define _ _ _ _ h := h
  set _ _ _ _ _ h := h
  write _ _ _ h := h

section Run

variable {c : Chunk} {n ip : Nat} {m m' : Machine} {slot : UInt8}
    (hspares : ¬ c.StoresUnused m slot)
include hspares

theorem Machine.clear_step (hpath : c.Path n 0 m ip m') (hclear : m'.stack.Clear slot) :
    (leftBy (m'.step c ip)).stack.Clear slot := by
  by_cases hstore : (c.fetch ip).result = .ok (.setLocal slot)
  · rw [leftBy_step hstore]
    rcases Instruction.leftBy_setLocal slot (c.fetch ip).next m' with hsame | ⟨hheight, v, hstored⟩
    · rw [hsame]
      exact hclear
    · rw [hstored]
      apply hclear.store
      intro _
      apply Nat.lt_of_not_le
      intro hunused
      exact hspares ⟨n, ip, m', hpath, hstore, hheight, hunused⟩
  · apply keeps_step (P := fun m => m.stack.Clear slot) _ hclear
    intro i hfetch
    apply Instruction.harmless_clear
    rintro rfl
    exact hstore hfetch

/-- Along the way the slot stays clear. -/
theorem Machine.clear_of_path (hclear : m.stack.Clear slot) (hpath : c.Path n 0 m ip m') :
    m'.stack.Clear slot := by
  have hstart : (∃ k, c.Path k 0 m 0 m) ∧ m.stack.Clear slot := ⟨⟨0, .nil⟩, hclear⟩
  refine (hpath.preserves (P := fun ip m' => (∃ k, c.Path k 0 m ip m') ∧ m'.stack.Clear slot) ?_
    hstart).2
  rintro ip m₁ ip' m₂ hlt ⟨⟨k, hbefore⟩, hclear⟩ hstep
  have hleft := clear_step hspares hbefore hclear
  rw [hstep] at hleft
  exact ⟨⟨k + 1, hbefore.trans (.single hlt hstep)⟩, hleft⟩

/-- A run that never stores to the slot while that is not in use leaves nothing there. -/
theorem Machine.slot_of_runChunk (hclear : m.stack.Clear slot) {fuel : Nat} {tracing : Bool}
    {failure : Option Failure} {log : Array Record}
    (hruns : m.runChunk fuel tracing c = some (m', failure, log)) :
    m'.stack.slots[slot.toNat]? = some .nil := by
  obtain ⟨n, ip, m₁, m₂, outcome, -, hpath, hends, rfl, -⟩ := ends_of_runChunk hruns
  have hbefore := clear_of_path hspares hclear hpath
  apply Stack.Clear.reset
  cases hends with
  | past _ => exact hbefore
  | unlisted _ _ => exact hbefore
  | stopped _ hstep =>
      have hleft := clear_step hspares hpath hbefore
      rwa [hstep] at hleft

end Run

/-- Compiled code stores into slots in use only, from an empty stack. -/
theorem Chunk.not_storesUnused {source : String} {c : Chunk} (hc : compile source = .ok c)
    {m : Machine} (hempty : m.stack.height = 0) (slot : UInt8) : ¬ c.StoresUnused m slot := by
  obtain ⟨tree, htree, hadmissible, hencodes⟩ := exists_tree_of_compile hc
  obtain ⟨sites, hfollows, -⟩ := hencodes.exists_follows htree hadmissible
  rintro ⟨n, ip, m', hpath, hfetch, -, hunused⟩
  have hreaches := hfollows.height_of_path hpath hempty
  exact absurd (hfollows.slot_lt_of_fetch hreaches hfetch (Or.inr rfl)) (Nat.not_lt.mpr hunused)

/-- The machines that a session comes to in which no chunk stores into a slot not in use. Compiled
texts may be any. -/
inductive Machine.Tidy : Machine → Prop
  | fresh (sink : Sink) : Tidy { sink }
  | performed {m m' : Machine} {fuel : Nat} {tracing : Bool} {p : Program} {reply : Reply}
      (h : m.Tidy) (hspares : ∀ c, p = .chunk c → ∀ slot, ¬ c.StoresUnused m slot)
      (hruns : m.perform fuel tracing p = some (m', reply)) : Tidy m'

namespace Machine

variable {m m' : Machine} {c : Chunk} {fuel : Nat} {tracing : Bool} {failure : Option Failure}
  {log : Array Record}

theorem Reached.clear (h : m.Reached) {slot : UInt8}
    (hslot : m.stack.slots[slot.toNat]? = some .nil) :
    m.stack.Clear slot :=
  ⟨h.ready.1, fun _ => hslot⟩

/-- A run that stores into slots in use only leaves the empty stack, if it starts with it. -/
theorem stack_of_runChunk (hempty : m.stack = .empty) (hspares : ∀ slot, ¬ c.StoresUnused m slot)
    (hruns : m.runChunk fuel tracing c = some (m', failure, log)) : m'.stack = .empty := by
  have hwhole : m.stack.slots.size = Stack.capacity := hempty ▸ Stack.size_slots_empty
  have hready := ready_of_runChunk hwhole hruns
  apply Stack.eq_empty hready.1 hready.2
  intro slot
  have hclear : m.stack.Clear slot := hempty ▸ .empty slot
  exact slot_of_runChunk (hspares slot) hclear hruns

theorem Tidy.stack_eq (h : m.Tidy) : m.stack = .empty := by
  induction h with
  | fresh sink => rfl
  | performed _ hspares hruns ih =>
      obtain rfl | ⟨c, failure, log, hchunk, hp⟩ := run_of_perform hruns
      · exact ih
      · refine stack_of_runChunk ih ?_ hchunk
        rcases hp with hp | ⟨source, -, hc⟩
        · exact hspares c hp
        · exact Chunk.not_storesUnused hc (ih ▸ rfl)

end Machine

/-- After a run, however it ends, the stack is whole and empty, and a slot that held nothing before
holds nothing, unless the code has stored into it while it was not in use. As long as no chunk of a
session has done that, the machine is the new one with the same globals and the same sink, so every
later program does what it would do on that. -/
theorem run_clears_stack {m : Machine} (h : m.Reached) {c : Chunk} {fuel : Nat} {tracing : Bool}
    {m' : Machine} {failure : Option Failure} {log : Array Record}
    (hruns : m.runChunk fuel tracing c = some (m', failure, log)) :
    m'.stack.height = 0 ∧ m'.stack.slots.size = Stack.capacity ∧
      (∀ slot : UInt8, m.stack.slots[slot.toNat]? = some .nil →
        m'.stack.slots[slot.toNat]? = some .nil ∨ c.StoresUnused m slot) ∧
      (m.Tidy → (∀ slot, ¬ c.StoresUnused m slot) → ∀ (fuel : Nat) (tracing : Bool) (p : Program),
        m'.perform fuel tracing p =
          Machine.perform fuel tracing p { globals := m'.globals, sink := m'.sink }) := by
  have hready := Machine.ready_of_runChunk h.ready.1 hruns
  refine ⟨hready.2, hready.1, fun slot hslot => ?_, fun htidy hspares fuel tracing p => ?_⟩
  · by_cases hstores : c.StoresUnused m slot
    · exact Or.inr hstores
    · exact Or.inl (Machine.slot_of_runChunk hstores (h.clear hslot) hruns)
  · have hempty := Machine.stack_of_runChunk htidy.stack_eq hspares hruns
    rw [← hempty]

set_option maxRecDepth 4000 in
/-- The exception is one: a chunk that stores into slot nine with one value on the stack leaves the
value behind. -/
theorem run_clears_stack_stored :
    let c : Chunk := { code := #[Opcode.pushTrue.toByte, Opcode.setLocal.toByte, 9,
      Opcode.ret.toByte] }
    ∃ m' : Machine, ({} : Machine).Reached ∧ ({} : Machine).runChunk 3 false c =
      some (m', none, #[]) ∧
      m'.stack.slots[9]? = some (.bool true) ∧
      m'.stack.height = 0 ∧ m'.stack.slots.size = Stack.capacity ∧
      (∀ slot : UInt8, ({} : Machine).stack.slots[slot.toNat]? = some .nil →
        m'.stack.slots[slot.toNat]? = some .nil ∨ c.StoresUnused {} slot) ∧
      (({} : Machine).Tidy → (∀ slot, ¬ c.StoresUnused {} slot) →
        ∀ (fuel : Nat) (tracing : Bool) (p : Program), m'.perform fuel tracing p =
          Machine.perform fuel tracing p { globals := m'.globals, sink := m'.sink }) := by
  intro c
  have hruns : ({} : Machine).runChunk 3 false c =
      some ({ stack := ((Stack.empty.push (.bool true)).store 9 (.bool true)).reset }, none, #[]) :=
        rfl
  refine ⟨_, .fresh {}, hruns, ?_, run_clears_stack (.fresh {}) hruns⟩
  simp [Stack.reset, Stack.store, Stack.push, Stack.empty, Stack.capacity]

end StackScript
