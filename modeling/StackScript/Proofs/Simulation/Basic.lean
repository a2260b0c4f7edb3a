import StackScript.Tree.Meaning
import StackScript.Proofs.Code.Decode
import StackScript.Proofs.Machine.Holding
import StackScript.Proofs.Machine.Path

/-!
How code carries out an evaluation. From a machine that mirrors the store, the code leads
to one that mirrors the store afterwards, or it faults when the evaluation does. When the
evaluation runs out of fuel, the code goes on for at least as many steps.
-/

namespace StackScript

open Tree

section Effects

variable {ε σ α β : Type} {x : EStateM ε σ α} {f : α → EStateM ε σ β} {s s' : σ} {a : α} {e : ε}

theorem bind_of_ok (h : x s = .ok a s') : (x >>= f) s = f a s' := by
  show EStateM.bind x f s = f a s'
  rw [EStateM.bind, h]

theorem bind_of_error (h : x s = .error e s') : (x >>= f) s = .error e s' := by
  show EStateM.bind x f s = .error e s'
  rw [EStateM.bind, h]

/-- What has been done already does not matter for what follows. -/
theorem bind_of_eq {y : EStateM ε σ α} (h : x s = y s') : (x >>= f) s = (y >>= f) s' := by
  show EStateM.bind x f s = EStateM.bind y f s'
  rw [EStateM.bind, EStateM.bind, h]

end Effects

/-- A place in the code with the names of the locals and the operands above them. -/
structure Point where
  offset : Nat
  scope : Scope
  operands : List Value

namespace Machine

/-- What can be seen of the machine from outside is as evaluation has it; `before` had been
written already. -/
structure Agrees (m : Machine) (before : Array UInt8) (s : Store) : Prop where
  globals : m.globals = s.globals
  written : m.sink.written = before ++ s.output

/-- The machine has the operands of a point above the locals of the store. -/
structure Mirrors (m : Machine) (before : Array UInt8) (p : Point) (s : Store) : Prop
    extends m.Agrees before s where
  stack : m.stack.Holds (p.operands ++ s.locals.map Prod.snd)
  names : s.locals.map Prod.fst = p.scope
  unlimited : m.sink.limit = none

namespace Mirrors

variable {m : Machine} {before : Array UInt8} {p q : Point} {s : Store}

theorem length_locals (h : m.Mirrors before p s) : s.locals.length = p.scope.length := by
  rw [← h.names, List.length_map]

/-- The same at another point with other operands. -/
theorem withStack (h : m.Mirrors before p s) {stack : Stack} (hscope : q.scope = p.scope)
    (hstack : stack.Holds (q.operands ++ s.locals.map Prod.snd)) :
    { m with stack }.Mirrors before q s :=
  ⟨⟨h.globals, h.written⟩, hstack, h.names.trans hscope.symm, h.unlimited⟩

/-- The machine does not know where it is. -/
theorem elsewhere (h : m.Mirrors before p s) (offset : Nat) :
    m.Mirrors before { p with offset } s :=
  ⟨h.toAgrees, h.stack, h.names, h.unlimited⟩

end Mirrors

end Machine

namespace Chunk

/-- The instructions stand at the offset, and their operands hold their distances. -/
structure Runs (c : Chunk) (offset : Nat) (items : List Item) : Prop where
  has : c.Has offset items
  fits : ∀ op distance, Item.jump op distance ∈ items → distance ≤ Builder.distanceMax

namespace Runs

variable {c : Chunk} {offset : Nat} {item : Item} {first second rest : List Item}

theorem left (h : c.Runs offset (first ++ second)) : c.Runs offset first :=
  ⟨(has_append.mp h.has).1, fun op distance hmem =>
    h.fits op distance (List.mem_append_left _ hmem)⟩

theorem right (h : c.Runs offset (first ++ second)) : c.Runs (offset + codeSize first) second :=
  ⟨(has_append.mp h.has).2, fun op distance hmem =>
    h.fits op distance (List.mem_append_right _ hmem)⟩

theorem tail (h : c.Runs offset (item :: rest)) : c.Runs (offset + item.size) rest :=
  ⟨(has_cons.mp h.has).2, fun op distance hmem => h.fits op distance (List.mem_cons_of_mem _ hmem)⟩

/-- A step executes the instruction that stands at the offset. -/
theorem step (h : c.Runs offset (item :: rest)) {i : Instruction}
    (hi : item.instruction? c.constants.toList = some i) (m : Machine) :
    m.step c offset = match i.exec (offset + item.size) m with
      | .ok ip m => .ok ip m
      | .error stop m => .error (stop.outcome (c.lineBefore (offset + item.size))) m := by
  apply Machine.step_of_fetch
  exact h.has.fetch_instruction hi fun op distance hitem =>
    h.fits op distance (hitem ▸ List.mem_cons_self ..)

end Runs

variable {α β : Type}

/-- What becomes of a machine at an offset while a result is reached. -/
def Carries (c : Chunk) (before : Array UInt8) (fuel ip : Nat) (m : Machine) (q : α → Point) :
    EStateM.Result Halt Store α → Prop
  | .ok a s => ∃ n m', c.Path n ip m (q a).offset m' ∧ m'.Mirrors before (q a) s
  | .error (.fault f) s => ∃ n stop m' m'' line, c.Path n ip m stop m' ∧
      c.Ends stop m' (.failed ⟨f, line⟩) m'' ∧ m''.Agrees before s
  | .error .outOfFuel _ => ∃ n stop m', fuel ≤ n ∧ c.Path n ip m stop m'

/-- From the point `p` on, the code does what `x` does, and comes to the point that belongs
to the result. -/
def Simulates (c : Chunk) (before : Array UInt8) (fuel : Nat) (p : Point) (x : Eval α)
    (q : α → Point) : Prop :=
  ∀ m s, m.Mirrors before p s → c.Carries before fuel p.offset m q (x s)

/-- From one point the code comes to another, and no part of the store changes. -/
def Passes (c : Chunk) (before : Array UInt8) (n : Nat) (p q : Point) : Prop :=
  ∀ m s, m.Mirrors before p s → ∃ m', c.Path n p.offset m q.offset m' ∧ m'.Mirrors before q s

variable {c : Chunk} {before : Array UInt8} {fuel less n k : Nat} {p p' p'' : Point} {x : Eval α}
  {q : α → Point} {r : β → Point}

theorem Carries.mono {ip : Nat} {m : Machine} {result : EStateM.Result Halt Store α}
    (h : c.Carries before fuel ip m q result) (hle : less ≤ fuel) :
    c.Carries before less ip m q result := by
  cases result with
  | ok a s => exact h
  | error halt s =>
      cases halt with
      | fault f => exact h
      | outOfFuel =>
          obtain ⟨n, stop, m', hn, hpath⟩ := h
          exact ⟨n, stop, m', hle.trans hn, hpath⟩

/-- What is carried on behind a path is carried from its start, with more fuel. -/
theorem Carries.behind {ip ip' : Nat} {m m' : Machine} {result : EStateM.Result Halt Store α}
    (hpath : c.Path n ip m ip' m') (h : c.Carries before fuel ip' m' q result) :
    c.Carries before (n + fuel) ip m q result := by
  cases result with
  | ok a s =>
      obtain ⟨k, m'', hrest, hmirrors⟩ := h
      exact ⟨n + k, m'', hpath.trans hrest, hmirrors⟩
  | error halt s =>
      cases halt with
      | fault f =>
          obtain ⟨k, stop, m₁, m₂, line, hrest, hends⟩ := h
          exact ⟨n + k, stop, m₁, m₂, line, hpath.trans hrest, hends⟩
      | outOfFuel =>
          obtain ⟨k, stop, m₁, hk, hrest⟩ := h
          exact ⟨n + k, stop, m₁, Nat.add_le_add_left hk n, hpath.trans hrest⟩

theorem Passes.refl : c.Passes before 0 p p :=
  fun m _ h => ⟨m, .nil, h⟩

theorem Passes.trans (h₁ : c.Passes before n p p') (h₂ : c.Passes before k p' p'') :
    c.Passes before (n + k) p p'' := by
  intro m s hm
  obtain ⟨m', hpath, hm'⟩ := h₁ m s hm
  obtain ⟨m'', hrest, hm''⟩ := h₂ m' s hm'
  exact ⟨m'', hpath.trans hrest, hm''⟩

namespace Simulates

theorem mono (h : c.Simulates before fuel p x q) (hle : less ≤ fuel) :
    c.Simulates before less p x q :=
  fun m s hm => (h m s hm).mono hle

/-- Steps that change nothing of the store count as fuel. -/
theorem after (hpasses : c.Passes before n p p') (h : c.Simulates before fuel p' x q) :
    c.Simulates before (n + fuel) p x q := by
  intro m s hm
  obtain ⟨m', hpath, hm'⟩ := hpasses m s hm
  exact (h m' s hm').behind hpath

theorem passes (hpasses : c.Passes before n p p') (h : c.Simulates before fuel p' x q) :
    c.Simulates before fuel p x q :=
  (after hpasses h).mono (Nat.le_add_left fuel n)

theorem pure {a : α} (h : c.Passes before n p (q a)) : c.Simulates before fuel p (pure a) q :=
  fun m s hm =>
    let ⟨m', hpath, hm'⟩ := h m s hm
    ⟨n, m', hpath, hm'⟩

theorem bind {f : α → Eval β} (h : c.Simulates before fuel p x q)
    (hf : ∀ a, c.Simulates before fuel (q a) (f a) r) : c.Simulates before fuel p (x >>= f) r := by
  intro m s hm
  have hfirst := h m s hm
  cases hx : x s with
  | ok a s' =>
      rw [hx] at hfirst
      obtain ⟨n, m', hpath, hm'⟩ := hfirst
      rw [bind_of_ok hx]
      exact ((hf a m' s' hm').behind hpath).mono (Nat.le_add_left fuel n)
  | error halt s' =>
      rw [hx] at hfirst
      rw [bind_of_error hx]
      cases halt <;> exact hfirst

/-- The code of an evaluation, and silent steps behind it. -/
theorem snoc (h : c.Simulates before fuel p x q) {q' : α → Point}
    (hq : ∀ a, c.Passes before n (q a) (q' a)) : c.Simulates before fuel p x q' := by
  have hbind := h.bind (r := q') (f := Pure.pure) fun a => pure (hq a)
  rwa [bind_pure] at hbind

end Simulates

/-- One instruction and one result, side by side. -/
def Executes (before : Array UInt8) (q : α → Point) :
    EStateM.Result Stop Machine Nat → EStateM.Result Halt Store α → Prop
  | .ok ip m, .ok a s => ip = (q a).offset ∧ m.Mirrors before (q a) s
  | .error (.fault f) m, .error halt s => halt = .fault f ∧ m.Agrees before s
  | _, _ => False

/-- An instruction does what an evaluation does. -/
theorem simulates_of_exec {item : Item} {rest : List Item} {i : Instruction}
    (h : c.Runs p.offset (item :: rest)) (hi : item.instruction? c.constants.toList = some i)
    (hexec : ∀ m s, m.Mirrors before p s →
      Executes before q (i.exec (p.offset + item.size) m) (x s)) :
    c.Simulates before fuel p x q := by
  intro m s hm
  have hstep := h.step hi m
  have hone := hexec m s hm
  have hlt := h.has.lt_size
  generalize i.exec (p.offset + item.size) m = done at hstep hone
  generalize x s = result at hone
  unfold Executes at hone
  split at hone
  · obtain ⟨rfl, hmirrors⟩ := hone
    exact ⟨1, _, .single hlt hstep, hmirrors⟩
  · obtain ⟨rfl, hagrees⟩ := hone
    exact ⟨0, _, m, _, _, .nil, .stopped hlt hstep, hagrees⟩
  · exact hone.elim

/-- An instruction changes nothing of the store. -/
theorem passes_of_exec {item : Item} {rest : List Item} {i : Instruction}
    (h : c.Runs p.offset (item :: rest)) (hi : item.instruction? c.constants.toList = some i)
    (hexec : ∀ m s, m.Mirrors before p s →
      ∃ m', i.exec (p.offset + item.size) m = .ok p'.offset m' ∧ m'.Mirrors before p' s) :
    c.Passes before 1 p p' := by
  intro m s hm
  obtain ⟨m', hrun, hm'⟩ := hexec m s hm
  have hstep := h.step hi m
  rw [hrun] at hstep
  exact ⟨m', .single h.has.lt_size hstep, hm'⟩

end Chunk

end StackScript
