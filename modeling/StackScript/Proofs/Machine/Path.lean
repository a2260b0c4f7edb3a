import Mathlib.Tactic.Common
import StackScript.Machine.Run

/-!
Runs as paths of single steps. A run follows the one path that its chunk and machine give
it, however its fuel is divided, and tracing leaves the path alone.
-/

namespace StackScript

namespace Chunk

/-- From one offset and machine to another in so many steps. -/
inductive Path (c : Chunk) : Nat → Nat → Machine → Nat → Machine → Prop
  | nil {ip : Nat} {m : Machine} : Path c 0 ip m ip m
  | cons {n ip ip₁ ip₂ : Nat} {m m₁ m₂ : Machine} (hlt : ip < c.size)
      (hstep : m.step c ip = .ok ip₁ m₁) (hrest : Path c n ip₁ m₁ ip₂ m₂) :
      Path c (n + 1) ip m ip₂ m₂

/-- At this offset and machine a run ends with an outcome. -/
inductive Ends (c : Chunk) (ip : Nat) (m : Machine) : Outcome → Machine → Prop
  | past (h : ¬ ip < c.size) : Ends c ip m .finished m
  | unlisted (hlt : ip < c.size) (h : m.records? c ip = none) : Ends c ip m .outOfRange m
  | stopped {outcome : Outcome} {m' : Machine} (hlt : ip < c.size)
      (h : m.step c ip = .error outcome m') : Ends c ip m outcome m'

namespace Path

variable {c : Chunk} {n k ip ip₁ ip₂ : Nat} {m m₁ m₂ : Machine}

theorem single (hlt : ip < c.size) (hstep : m.step c ip = .ok ip₁ m₁) : c.Path 1 ip m ip₁ m₁ :=
  .cons hlt hstep .nil

theorem trans (h₁ : c.Path n ip m ip₁ m₁) (h₂ : c.Path k ip₁ m₁ ip₂ m₂) :
    c.Path (n + k) ip m ip₂ m₂ := by
  induction h₁ with
  | nil => rwa [Nat.zero_add]
  | cons hlt hstep _ ih =>
      rw [Nat.add_right_comm]
      exact .cons hlt hstep (ih h₂)

/-- What every step preserves holds all along a path. -/
theorem preserves {P : Nat → Machine → Prop}
    (hstep : ∀ ip m ip' m', ip < c.size → P ip m → m.step c ip = .ok ip' m' → P ip' m')
    (h : c.Path n ip m ip₁ m₁) (hstart : P ip m) : P ip₁ m₁ := by
  induction h with
  | nil => exact hstart
  | cons hlt hone _ ih => exact ih (hstep _ _ _ _ hlt hstart hone)

end Path

/-- Every offset within the code can be listed. -/
theorem isSome_instructionLine? (c : Chunk) {offset : Nat} (h : offset < c.size) :
    (c.instructionLine? offset).isSome := by
  have hbyte (i : Nat) (hi : i < c.size) : ∃ byte, c.code[i]? = some byte :=
    ⟨_, Array.getElem?_eq_getElem hi⟩
  obtain ⟨byte, hop⟩ := hbyte offset h
  unfold instructionLine?
  simp only [hop, Option.bind_eq_bind, Option.bind_some]
  cases hof : Opcode.ofByte? byte with
  | none => rfl
  | some op =>
      dsimp only
      split
      · rfl
      · rename_i hwhole
        have htext : (c.instructionText op offset).isSome := by
          unfold instructionText
          cases op <;> simp only [Opcode.operandBytes] at hwhole <;> try rfl
          case jump | jumpIfFalse | loop =>
            obtain ⟨high, hhigh⟩ := hbyte (offset + 1) (by omega)
            obtain ⟨low, hlow⟩ := hbyte (offset + 1 + 1) (by omega)
            simp [wordAt?, hhigh, hlow]
          all_goals
            obtain ⟨index, hindex⟩ := hbyte (offset + 1) (by omega)
            simp [hindex]
        obtain ⟨text, htext⟩ := Option.isSome_iff_exists.mp htext
        simp [htext]

end Chunk

namespace Run

variable {c : Chunk} (tracing : Bool)

theorem exists_traced (c : Chunk) (tracing : Bool) {ip : Nat} (h : ip < c.size) (m : Machine)
    (log : Array Record) : ∃ log', traced? c tracing ip m log = some log' := by
  obtain ⟨line, hline⟩ := Option.isSome_iff_exists.mp (c.isSome_instructionLine? h)
  cases tracing with
  | false => exact ⟨log, rfl⟩
  | true => simp [traced?, Machine.records?, hline]

/-- One instruction of a run that goes on. -/
theorem go_succ {tracing : Bool} {ip : Nat} {m : Machine} {log traced : Array Record}
    (hlt : ip < c.size) (htraced : traced? c tracing ip m log = some traced) (n : Nat) :
    go c tracing (n + 1) ip m log =
      match m.step c ip with
      | .ok ip' m' => go c tracing n ip' m' traced
      | .error outcome m' => ⟨c, tracing, ip, m', traced, some outcome⟩ := by
  rw [go, if_pos hlt]
  exact htraced ▸ rfl

theorem go_of_past {tracing : Bool} {ip : Nat} (hge : ¬ ip < c.size) (n : Nat) (m : Machine)
    (log : Array Record) :
    go c tracing (n + 1) ip m log = ⟨c, tracing, ip, m, log, some .finished⟩ := by
  rw [go, if_neg hge]

/-- A run that follows a path has used up one unit of fuel for each step. -/
theorem go_of_path {n ip ip' : Nat} {m m' : Machine} (h : c.Path n ip m ip' m') (k : Nat)
    (log : Array Record) : ∃ log', go c tracing (n + k) ip m log = go c tracing k ip' m' log' := by
  induction h generalizing log with
  | nil => exact ⟨log, by rw [Nat.zero_add]⟩
  | cons hlt hstep _ ih =>
      obtain ⟨traced, htraced⟩ := exists_traced c tracing hlt _ log
      obtain ⟨log', hrest⟩ := ih traced
      refine ⟨log', ?_⟩
      rw [Nat.add_right_comm, go_succ hlt htraced, hstep]
      exact hrest

/-- A run with fuel for no more than a path has not come to its end. -/
theorem outcome_of_path {n ip ip' : Nat} {m m' : Machine} (h : c.Path n ip m ip' m') {fuel : Nat}
    (hfuel : fuel ≤ n) (log : Array Record) : (go c tracing fuel ip m log).outcome = none := by
  induction h generalizing fuel log with
  | nil =>
      obtain rfl := Nat.le_zero.mp hfuel
      rfl
  | cons hlt hstep _ ih =>
      cases fuel with
      | zero => rfl
      | succ fuel =>
          obtain ⟨traced, htraced⟩ := exists_traced c tracing hlt _ log
          rw [go_succ hlt htraced, hstep]
          exact ih (Nat.le_of_succ_le_succ hfuel) traced

/-- A run that stands where it ends takes one more unit of fuel to find out. -/
theorem go_of_ends {ip : Nat} {m m' : Machine} {outcome : Outcome} (h : c.Ends ip m outcome m')
    (k : Nat) (log : Array Record) :
    ∃ log', go c tracing (k + 1) ip m log = ⟨c, tracing, ip, m', log', some outcome⟩ := by
  cases h with
  | past hge => exact ⟨log, go_of_past hge k m log⟩
  | unlisted hlt hnone =>
      obtain ⟨line, hline⟩ := Option.isSome_iff_exists.mp (c.isSome_instructionLine? hlt)
      simp [Machine.records?, hline] at hnone
  | stopped hlt hstep =>
      obtain ⟨traced, htraced⟩ := exists_traced c tracing hlt m log
      exact ⟨traced, by rw [go_succ hlt htraced, hstep]⟩

/-- A run goes along a path, and either goes on from there or has come to its end. -/
theorem path_of_go (n ip : Nat) (m : Machine) (log : Array Record) :
    let r := go c tracing n ip m log
    (r.outcome = none ∧ c.Path n ip m r.ip r.machine) ∨
      ∃ outcome k m', r.outcome = some outcome ∧ k < n ∧ c.Path k ip m r.ip m' ∧
        c.Ends r.ip m' outcome r.machine := by
  induction n generalizing ip m log with
  | zero => exact Or.inl ⟨rfl, .nil⟩
  | succ n ih =>
      intro r
      by_cases hlt : ip < c.size
      · obtain ⟨traced, htraced⟩ := exists_traced c tracing hlt m log
        have hr : r = _ := go_succ hlt htraced n
        cases hstep : m.step c ip with
        | error outcome m' =>
            rw [hstep] at hr
            rw [hr]
            exact Or.inr ⟨outcome, 0, m, rfl, Nat.succ_pos n, .nil, .stopped hlt hstep⟩
        | ok ip' m' =>
            rw [hstep] at hr
            rw [hr]
            rcases ih ip' m' traced with ⟨hnone, hpath⟩ | ⟨outcome, k, m'', hsome, hk, hpath, hends⟩
            · exact Or.inl ⟨hnone, .cons hlt hstep hpath⟩
            · exact Or.inr ⟨outcome, k + 1, m'', hsome, Nat.succ_lt_succ hk, .cons hlt hstep hpath,
                hends⟩
      · have hr : r = ⟨c, tracing, ip, m, log, some .finished⟩ := go_of_past hlt n m log
        rw [hr]
        exact Or.inr ⟨.finished, 0, m, rfl, Nat.succ_pos n, .nil, .past hlt⟩

/-- A run that goes on has followed a path for all its fuel. -/
theorem path_of_goes {n ip : Nat} {m : Machine} {log : Array Record}
    (h : (go c tracing n ip m log).outcome = none) :
    c.Path n ip m (go c tracing n ip m log).ip (go c tracing n ip m log).machine := by
  obtain ⟨-, hpath⟩ | ⟨_, _, _, hsome, -⟩ := path_of_go (c := c) tracing n ip m log
  · exact hpath
  · cases h.symm.trans hsome

/-- Between where it stood with less fuel and where it stands there is a path, too. -/
theorem path_between {n k ip : Nat} {m : Machine} {log : Array Record}
    (h : (go c tracing (n + k) ip m log).outcome = none) :
    c.Path n ip m (go c tracing n ip m log).ip (go c tracing n ip m log).machine ∧
      c.Path k (go c tracing n ip m log).ip (go c tracing n ip m log).machine
        (go c tracing (n + k) ip m log).ip (go c tracing (n + k) ip m log).machine := by
  have hwhole := path_of_goes tracing h
  have hfirst := path_of_goes tracing (outcome_of_path tracing hwhole (Nat.le_add_right n k) log)
  obtain ⟨log', hgo⟩ := go_of_path tracing hfirst k log
  rw [hgo] at h ⊢
  exact ⟨hfirst, path_of_goes tracing h⟩

theorem advance_start (c : Chunk) (tracing : Bool) (m : Machine) (n : Nat) :
    (start c tracing m).advance n = go c tracing n 0 m #[] :=
  rfl

end Run

end StackScript
