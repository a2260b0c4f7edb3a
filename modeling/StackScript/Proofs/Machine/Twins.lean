import StackScript.Machine.Run
import StackScript.Proofs.Machine.Composing

/-!
Machines that cannot be told apart by what is in use. Only the load of a slot above the
height could tell them apart, so an instruction that stays below it does the same to both.
-/

namespace StackScript

/-- Both stacks have all of their slots, and those in use hold the same values. -/
structure Stack.Twin (s s' : Stack) : Prop where
  left : s.slots.size = Stack.capacity
  right : s'.slots.size = Stack.capacity
  height : s.height = s'.height
  agree : ∀ i < s.height, s.slots[i]? = s'.slots[i]?

namespace Stack.Twin

variable {s s' : Stack} (h : s.Twin s')

theorem refl {s : Stack} (h : s.slots.size = Stack.capacity) : s.Twin s :=
  ⟨h, h, rfl, fun _ _ => rfl⟩

theorem of_empty {s s' : Stack} (hs : s.slots.size = Stack.capacity)
    (hs' : s'.slots.size = Stack.capacity) (hheight : s.height = 0) (hheight' : s'.height = 0) :
    s.Twin s' :=
  ⟨hs, hs', hheight.trans hheight'.symm, fun i hi => absurd hi (by omega)⟩

include h

theorem live : s.live = s'.live := by
  refine List.ext_getElem? fun i => ?_
  simp only [Stack.live, List.getElem?_take, Array.getElem?_toList, ← h.height]
  split
  · exact h.agree i ‹_›
  · rfl

theorem listing : s.listing = s'.listing := by
  rw [Stack.listing, Stack.listing, h.live]

theorem store (slot : Nat) (v : Value) : (s.store slot v).Twin (s'.store slot v) := by
  refine ⟨(s.size_slots_store slot v).trans h.left, (s'.size_slots_store slot v).trans h.right,
    h.height, fun i hi => ?_⟩
  simp only [Stack.store, Array.getElem?_setIfInBounds, h.left, h.right, h.agree i hi]

theorem push (v : Value) : (s.push v).Twin (s'.push v) := by
  refine ⟨(s.size_slots_push v).trans h.left, (s'.size_slots_push v).trans h.right,
    congrArg (· + 1) h.height, fun i hi => ?_⟩
  simp only [Stack.push, Array.getElem?_setIfInBounds, h.left, h.right, h.height]
  split
  · rfl
  · have hlt : i < s.height + 1 := hi
    have hother := h.height
    exact h.agree i (by omega)

theorem drop : s.drop.Twin s'.drop := by
  refine ⟨s.size_slots_drop.trans h.left, s'.size_slots_drop.trans h.right,
    congrArg (· - 1) h.height, fun i hi => ?_⟩
  have hlt : i < s.height - 1 := hi
  simp only [Stack.drop, Array.getElem?_setIfInBounds, h.left, h.right, h.height]
  split
  · rfl
  · exact h.agree i (by omega)

end Stack.Twin

/-- Machines that differ at most in what slots above the height hold. -/
structure Machine.Twin (m m' : Machine) : Prop where
  stack : m.stack.Twin m'.stack
  globals : m.globals = m'.globals
  sink : m.sink = m'.sink

theorem Machine.Twin.refl {m : Machine} (h : m.stack.slots.size = Stack.capacity) : m.Twin m :=
  ⟨.refl h, rfl, rfl⟩

/-- The same has become of twins: the same result, or the same reason to stop. -/
inductive SameResult {ε α : Type} : EStateM.Result ε Machine α → EStateM.Result ε Machine α → Prop
  | ok {a : α} {m m' : Machine} (h : m.Twin m') : SameResult (.ok a m) (.ok a m')
  | error {e : ε} {m m' : Machine} (h : m.Twin m') : SameResult (.error e m) (.error e m')

namespace Exec

variable {α β : Type}

/-- An effect that treats twins alike. -/
def Alike (x : Exec α) : Prop :=
  ∀ m m' : Machine, m.Twin m' → SameResult (x m) (x m')

/-- What follows an effect is looked at on the machines that the effect leaves. -/
theorem sameResult_bind {x : Exec α} {f : α → Exec β} {m m' : Machine}
    (hx : SameResult (x m) (x m')) (hf : ∀ a, (f a).Alike) :
    SameResult ((x >>= f) m) ((x >>= f) m') := by
  show SameResult (EStateM.bind x f m) (EStateM.bind x f m')
  unfold EStateM.bind
  generalize x m = r at hx ⊢
  generalize x m' = r' at hx ⊢
  cases hx with
  | ok h => exact hf _ _ _ h
  | error h => exact .error h

theorem alike_composes : Composes Alike where
  pure _ _ _ := .ok
  raise _ _ _ := .error
  returned _ _ := .error
  bind hx hf m m' h := sameResult_bind (hx m m' h) hf

theorem alike_push (v : Value) : (push v).Alike := by
  intro m m' h
  unfold push
  rw [← h.stack.height, h.stack.left, h.stack.right]
  split
  · exact .error h
  · split
    · exact .ok ⟨h.stack.push v, h.globals, h.sink⟩
    · exact .error h

theorem alike_pop : pop.Alike := by
  intro m m' h
  unfold pop
  rw [← h.stack.height]
  split
  · exact .error h
  · rw [← h.stack.agree (m.stack.height - 1) (by omega)]
    split
    · exact .ok ⟨h.stack.drop, h.globals, h.sink⟩
    · exact .error h

theorem alike_peek : peek.Alike := by
  intro m m' h
  unfold peek
  rw [← h.stack.height]
  split
  · exact .error h
  · rw [← h.stack.agree (m.stack.height - 1) (by omega)]
    split
    · exact .ok h
    · exact .error h

/-- A slot in use holds the same in both machines. -/
theorem sameResult_load {m m' : Machine} (h : m.Twin m') {slot : Nat}
    (hslot : slot < m.stack.height ∨ m = m') : SameResult (load slot m) (load slot m') := by
  have hsame : m.stack.slots[slot]? = m'.stack.slots[slot]? := by
    obtain hlt | rfl := hslot
    · exact h.stack.agree slot hlt
    · rfl
  unfold load
  rw [← hsame]
  split
  · exact .ok h
  · exact .error h

theorem alike_store (slot : Nat) (v : Value) : (store slot v).Alike := by
  intro m m' h
  unfold store
  rw [h.stack.left, h.stack.right]
  split
  · exact .ok ⟨h.stack.store slot v, h.globals, h.sink⟩
  · exact .error h

theorem alike_getGlobal (name : String) : (getGlobal name).Alike := by
  intro m m' h
  unfold getGlobal
  rw [← h.globals]
  split
  · exact .ok h
  · exact .error h

theorem alike_defineGlobal (name : String) (v : Value) : (defineGlobal name v).Alike :=
  fun _ _ h => .ok ⟨h.stack, congrArg (·.insert name v) h.globals, h.sink⟩

theorem alike_setGlobal (name : String) (v : Value) : (setGlobal name v).Alike := by
  intro m m' h
  unfold setGlobal
  rw [← h.globals]
  split
  · exact .ok ⟨h.stack, rfl, h.sink⟩
  · exact .error h

theorem alike_write (bytes : Array UInt8) : (write bytes).Alike := by
  intro m m' h
  rw [write_eq, write_eq, ← h.sink]
  split
  · exact .ok ⟨h.stack, h.globals, rfl⟩
  · exact .error ⟨h.stack, h.globals, rfl⟩

end Exec

open Exec

/-- All instructions but those that load a slot treat twins alike. -/
theorem Instruction.alike_exec {i : Instruction} (hload : ∀ slot, i ≠ .getLocal slot) (next : Nat) :
    (i.exec next).Alike := by
  refine Consists.exec (C := Alike) ?_ alike_composes next
  exact {
    push := alike_push
    pop := alike_pop
    peek := alike_peek
    load := fun slot hi => absurd hi (hload slot)
    store := fun slot v _ => alike_store slot.toNat v
    getGlobal := fun name _ => alike_getGlobal name
    defineGlobal := fun name v _ => alike_defineGlobal name v
    setGlobal := fun name v _ => alike_setGlobal name v
    write := fun v _ => alike_write v.printed }

/-- An instruction does the same to twins, as long as it loads nothing from above the
height, or to one machine, whatever it loads. -/
theorem Instruction.sameResult_exec (i : Instruction) (next : Nat) {m m' : Machine} (h : m.Twin m')
    (hslot : ∀ slot, i = .getLocal slot → slot.toNat < m.stack.height ∨ m = m') :
    SameResult (i.exec next m) (i.exec next m') := by
  by_cases hload : ∃ slot, i = .getLocal slot
  · obtain ⟨slot, rfl⟩ := hload
    have hloaded := sameResult_load h (hslot slot rfl)
    exact sameResult_bind hloaded fun v => alike_composes.andThen (alike_push v) next
  · have hother : ∀ slot, i ≠ .getLocal slot := fun slot hi => hload ⟨slot, hi⟩
    exact i.alike_exec hother next m m' h

/-- The same of a step. -/
theorem Machine.sameResult_step (c : Chunk) (ip : Nat) {m m' : Machine} (h : m.Twin m')
    (hslot : ∀ slot, (c.fetch ip).result = .ok (.getLocal slot) →
      slot.toNat < m.stack.height ∨ m = m') :
    SameResult (m.step c ip) (m'.step c ip) := by
  unfold Machine.step
  dsimp only
  cases hfetch : (c.fetch ip).result with
  | error f => exact .error h
  | ok i =>
      have hexec := i.sameResult_exec (c.fetch ip).next h
        fun slot hi => hslot slot (by rw [hfetch, hi])
      dsimp only
      generalize i.exec (c.fetch ip).next m = r at hexec ⊢
      generalize i.exec (c.fetch ip).next m' = r' at hexec ⊢
      cases hexec with
      | ok h => exact .ok h
      | error h => exact .error h

end StackScript
