import StackScript.Proofs.Machine.Ending
import StackScript.Proofs.Machine.Twins
import StackScript.Proofs.StackDiscipline

/-!
Programs on a used machine. Emptying the stack leaves behind what was stored above its
height, and chunks made by hand can store there. A compiled text never looks there, so it
runs as it would on a new machine with the same globals and the same sink.
-/

namespace StackScript

/-- The machines that a session comes to, by any programs and however these end. -/
inductive Machine.Reached : Machine → Prop
  | fresh (sink : Sink) : Reached { sink }
  | performed {m m' : Machine} {fuel : Nat} {tracing : Bool} {p : Program} {reply : Reply}
      (h : m.Reached) (hruns : m.perform fuel tracing p = some (m', reply)) : Reached m'

namespace Machine

variable {c : Chunk} {ip ip' : Nat} {m m' : Machine}

/-- No step makes the stack lose a slot, or gain one. -/
theorem size_of_step (h : m.stack.slots.size = Stack.capacity) (hstep : m.step c ip = .ok ip' m') :
    m'.stack.slots.size = Stack.capacity := by
  have hsame := sameResult_step c ip (Twin.refl h) fun _ _ => Or.inr rfl
  rw [hstep] at hsame
  cases hsame with
  | ok htwin => exact htwin.stack.left

theorem size_of_ends {outcome : Outcome} (h : m.stack.slots.size = Stack.capacity)
    (hends : c.Ends ip m outcome m') : m'.stack.slots.size = Stack.capacity := by
  cases hends with
  | past _ => exact h
  | unlisted _ _ => exact h
  | stopped _ hstep =>
      have hsame := sameResult_step c ip (Twin.refl h) fun _ _ => Or.inr rfl
      rw [hstep] at hsame
      cases hsame with
      | error htwin => exact htwin.stack.left

theorem ready_of_runChunk {fuel : Nat} {tracing : Bool} {failure : Option Failure}
    {log : Array Record} (h : m.stack.slots.size = Stack.capacity)
    (hruns : m.runChunk fuel tracing c = some (m', failure, log)) :
    m'.stack.slots.size = Stack.capacity ∧ m'.stack.height = 0 := by
  obtain ⟨n, ip, m₁, m₂, outcome, -, hpath, hends, rfl, -⟩ := ends_of_runChunk hruns
  have hsize := hpath.preserves (P := fun _ m => m.stack.slots.size = Stack.capacity)
    (fun _ _ _ _ _ => size_of_step) h
  exact ⟨(Stack.size_slots_reset _).trans (size_of_ends hsize hends), rfl⟩

/-- A program that is performed runs one chunk at most, the one given or the one compiled. -/
theorem run_of_perform {fuel : Nat} {tracing : Bool} {p : Program} {reply : Reply}
    (h : m.perform fuel tracing p = some (m', reply)) :
    m' = m ∨ ∃ c failure log, m.runChunk fuel tracing c = some (m', failure, log) ∧
      (p = .chunk c ∨ ∃ source, p = .source source ∧ compile source = .ok c) := by
  unfold perform at h
  cases p with
  | chunk c =>
      obtain ⟨⟨m₁, failure, log⟩, hchunk, hreply⟩ := Option.bind_eq_some_iff.mp h
      obtain ⟨rfl, -⟩ := Prod.mk.inj (Option.some.inj hreply)
      exact Or.inr ⟨c, failure, log, hchunk, Or.inl rfl⟩
  | source text =>
      obtain ⟨⟨m₁, failure, log⟩, hsource, hreply⟩ := Option.bind_eq_some_iff.mp h
      obtain ⟨rfl, -⟩ := Prod.mk.inj (Option.some.inj hreply)
      rcases run_of_interpret hsource with ⟨errors, -, rfl, -⟩ | ⟨c, log, hc, hchunk⟩
      · exact Or.inl rfl
      · exact Or.inr ⟨c, failure, log, hchunk, Or.inr ⟨text, rfl, hc⟩⟩

/-- Between the programs of a session, the stack is whole and empty. -/
theorem Reached.ready (h : m.Reached) :
    m.stack.slots.size = Stack.capacity ∧ m.stack.height = 0 := by
  induction h with
  | fresh sink => exact ⟨Stack.size_slots_empty, rfl⟩
  | performed _ hruns ih =>
      obtain rfl | ⟨c, failure, log, hchunk, -⟩ := run_of_perform hruns
      · exact ih
      · exact ready_of_runChunk ih.1 hchunk

end Machine

/-- Runs that have come equally far, on machines that cannot be told apart. -/
structure Run.Twin (r r' : Run) : Prop where
  ip : r.ip = r'.ip
  outcome : r.outcome = r'.outcome
  log : r.log = r'.log
  machine : r.machine.Twin r'.machine

open Chunk in
/-- Code whose sites are known takes twins the same way, from a stack of the right height. -/
theorem Chunk.Follows.twin_go {c : Chunk} {sites : List Tree.Site} (h : c.Follows sites)
    (tracing : Bool) (fuel : Nat) {ip : Nat} {m m' : Machine} (htwin : m.Twin m')
    (hreaches : Reaches sites ip m.stack.height) (log : Array Record) :
    (Run.go c tracing fuel ip m log).Twin (Run.go c tracing fuel ip m' log) := by
  induction fuel generalizing ip m m' log with
  | zero => exact ⟨rfl, rfl, rfl, htwin⟩
  | succ fuel ih =>
      have htraced : Run.traced? c tracing ip m log = Run.traced? c tracing ip m' log := by
        rw [Run.traced?, Run.traced?, Machine.records?, Machine.records?, htwin.stack.listing]
      have hstep := Machine.sameResult_step c ip htwin fun slot hfetch =>
        Or.inl (h.slot_lt_of_fetch hreaches hfetch (Or.inl rfl))
      unfold Run.go
      rw [← htraced]
      split
      · split
        · exact ⟨rfl, rfl, rfl, htwin⟩
        · cases hleft : m.step c ip with
          | ok ip' m₁ =>
              rw [hleft] at hstep
              generalize m'.step c ip = right at hstep ⊢
              cases hstep with
              | ok htwin => exact ih htwin (h.reaches_of_step hreaches hleft) _
          | error outcome m₁ =>
              rw [hleft] at hstep
              generalize m'.step c ip = right at hstep ⊢
              cases hstep with
              | error htwin => exact ⟨rfl, rfl, rfl, htwin⟩
      · exact ⟨rfl, rfl, rfl, htwin⟩

/-- A used machine and a new one with the same globals and the same sink. -/
theorem Machine.Reached.twin {m : Machine} (h : m.Reached) :
    m.Twin { globals := m.globals, sink := m.sink } :=
  ⟨.of_empty h.ready.1 Stack.size_slots_empty h.ready.2 rfl, rfl, rfl⟩

theorem Machine.Reached.twin_run {m : Machine} (h : m.Reached) {source : String} {c : Chunk}
    (hc : compile source = .ok c) (tracing : Bool) (n : Nat) :
    ((Run.start c tracing m).advance n).Twin
      ((Run.start c tracing { globals := m.globals, sink := m.sink }).advance n) := by
  obtain ⟨tree, htree, hadmissible, hencodes⟩ := exists_tree_of_compile hc
  obtain ⟨sites, hfollows, -⟩ := hencodes.exists_follows htree hadmissible
  rw [Run.advance_start, Run.advance_start]
  exact hfollows.twin_go tracing n h.twin (h.ready.2 ▸ hfollows.reaches_start) #[]

/-- A text run on a used machine does what it would do on a new machine with the same
globals and the same sink: it ends alike or not at all, leaves the same globals, the same
output and the same log, and has the same values on the stack before every instruction. -/
theorem interpret_ignores_residue {m : Machine} (h : m.Reached) (source : String) (tracing : Bool) :
    let fresh : Machine := { globals := m.globals, sink := m.sink }
    (∀ fuel, (m.interpret fuel tracing source).map
        (fun (m', failure, log) => (m'.globals, m'.sink, failure, log)) =
      (fresh.interpret fuel tracing source).map
        (fun (m', failure, log) => (m'.globals, m'.sink, failure, log))) ∧
      ∀ c, compile source = .ok c → ∀ n,
        let r := (Run.start c tracing m).advance n
        let r' := (Run.start c tracing fresh).advance n
        r.ip = r'.ip ∧ r.outcome = r'.outcome ∧ r.log = r'.log ∧
          r.machine.stack.live = r'.machine.stack.live ∧
          r.machine.globals = r'.machine.globals ∧ r.machine.sink = r'.machine.sink := by
  intro fresh
  constructor
  · intro fuel
    unfold Machine.interpret
    dsimp only
    cases hc : compile source with
    | error errors => rfl
    | ok c =>
        obtain ⟨-, houtcome, hlog, hmachine⟩ := h.twin_run hc tracing fuel
        unfold Machine.runChunk
        dsimp only
        rw [← houtcome]
        cases ((Run.start c tracing m).advance fuel).outcome with
        | none => rfl
        | some outcome =>
            simp [Machine.settle, hlog, hmachine.globals, hmachine.sink, fresh]
  · intro c hc n r r'
    obtain ⟨hip, houtcome, hlog, hmachine⟩ := h.twin_run hc tracing n
    exact ⟨hip, houtcome, hlog, hmachine.stack.live, hmachine.globals, hmachine.sink⟩

set_option maxRecDepth 4000 in
/-- A machine on which a chunk made by hand has stored a value far above the height. -/
theorem interpret_ignores_residue_stored : ∃ m : Machine, m.Reached ∧
    m.stack.slots[9]? = some (.bool true) ∧ ∀ source tracing,
      let fresh : Machine := { globals := m.globals, sink := m.sink }
      (∀ fuel, (m.interpret fuel tracing source).map
          (fun (m', failure, log) => (m'.globals, m'.sink, failure, log)) =
        (fresh.interpret fuel tracing source).map
          (fun (m', failure, log) => (m'.globals, m'.sink, failure, log))) ∧
        ∀ c, compile source = .ok c → ∀ n,
          let r := (Run.start c tracing m).advance n
          let r' := (Run.start c tracing fresh).advance n
          r.ip = r'.ip ∧ r.outcome = r'.outcome ∧ r.log = r'.log ∧
            r.machine.stack.live = r'.machine.stack.live ∧
            r.machine.globals = r'.machine.globals ∧ r.machine.sink = r'.machine.sink := by
  let stores : Chunk :=
    { code := #[Opcode.pushTrue.toByte, Opcode.setLocal.toByte, 9, Opcode.ret.toByte] }
  obtain ⟨m, reply, hruns, hslot⟩ : ∃ m reply,
      ({} : Machine).perform 3 false (.chunk stores) = some (m, reply) ∧
        m.stack.slots[9]? = some (.bool true) := by
    refine ⟨{ stack := ((Stack.empty.push (.bool true)).store 9 (.bool true)).reset }, _, rfl, ?_⟩
    simp [Stack.reset, Stack.store, Stack.push, Stack.empty, Stack.capacity]
  have hreached : m.Reached := .performed (.fresh {}) hruns
  exact ⟨m, hreached, hslot, fun source tracing =>
    interpret_ignores_residue hreached source tracing⟩

end StackScript
