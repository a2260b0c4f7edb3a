import Mathlib.Logic.Relation
import StackScript.Proofs.Code.Embedding
import StackScript.Proofs.Simulation.Basic

/-!
Places in two chunks from which every machine fares the same. Whatever a run from the one place
comes to, a run from the other place comes to as well, though it may jump more or less often on
its way. Places meet for a number of steps: jumps that both runs take at once add one step, and so
a loop is closed by induction on that number.
-/

namespace StackScript

/-- The same outcome, whatever the line of an error. -/
def Outcome.placeless : Outcome → Outcome
  | .failed e => .failed { e with line := 0 }
  | outcome => outcome

theorem Stop.placeless_outcome (stop : Stop) (line line' : Nat) :
    (stop.outcome line).placeless = (stop.outcome line').placeless := by
  cases stop <;> rfl

namespace Instruction

/-- The instruction goes on behind itself, if at all. -/
def Straight (i : Instruction) : Prop :=
  ∀ next, i.targets next = [next]

/-- What such an instruction does to a machine does not depend on where it stands. -/
theorem Straight.exec {i : Instruction} (h : i.Straight) (m : Machine) :
    (∃ m', ∀ next, i.exec next m = .ok next m') ∨
      ∃ stop m', ∀ next, i.exec next m = .error stop m' := by
  have hstays : i ≠ .ret := by
    rintro rfl
    cases h 0
  have hback (distance : Nat) (hi : i = .loop distance) : distance ≤ 0 := by
    subst hi
    have hone : 1 - distance = 1 := List.singleton_inj.mp (h 1)
    omega
  have hmoves := i.exec_moves 0 hstays hback m
  have hexec (next : Nat) : i.exec next m = EStateM.map (next + ·) (i.exec 0) m :=
    congrFun (i.exec_shift next 0 hback) m
  unfold EStateM.map at hexec
  cases hstart : i.exec 0 m with
  | ok ip m' =>
      rw [hstart, h 0] at hmoves
      obtain rfl := List.mem_singleton.mp hmoves.1
      exact Or.inl ⟨m', fun next => by rw [hexec, hstart]; rfl⟩
  | error stop m' => exact Or.inr ⟨stop, m', fun next => by rw [hexec, hstart]⟩

end Instruction

namespace Chunk

/-- In so many steps a run has come to this machine and to this outcome, or to none yet. -/
inductive Comes (c : Chunk) : Nat → Nat → Machine → Option Outcome → Machine → Prop
  | here {ip : Nat} {m : Machine} : Comes c 0 ip m none m
  | ends {ip : Nat} {m m' : Machine} {outcome : Outcome} (h : c.Ends ip m outcome m') :
      Comes c 0 ip m (some outcome) m'
  | step {n ip ip₁ : Nat} {m m₁ m' : Machine} {outcome : Option Outcome} (hlt : ip < c.size)
      (hstep : m.step c ip = .ok ip₁ m₁) (hrest : Comes c n ip₁ m₁ outcome m') :
      Comes c (n + 1) ip m outcome m'

variable {c d : Chunk} {n k ip ip₁ jp jp₁ : Nat} {m m₁ m' : Machine}

/-- Within the code, only a step that fails ends a run. -/
theorem Ends.step_eq {outcome : Outcome} (h : c.Ends ip m outcome m') (hlt : ip < c.size) :
    m.step c ip = .error outcome m' := by
  cases h with
  | past hge => exact absurd hlt hge
  | unlisted _ hnone =>
      obtain ⟨line, hline⟩ := Option.isSome_iff_exists.mp (c.isSome_instructionLine? hlt)
      simp [Machine.records?, hline] at hnone
  | stopped _ hstep => exact hstep

section Runs

variable {outcome : Option Outcome} (tracing : Bool)

theorem Path.comes (hpath : c.Path n ip m ip₁ m₁) (h : c.Comes k ip₁ m₁ outcome m') :
    c.Comes (n + k) ip m outcome m' := by
  induction hpath with
  | nil => rwa [Nat.zero_add]
  | cons hlt hstep _ ih =>
      rw [Nat.add_right_comm]
      exact .step hlt hstep (ih h)

theorem exists_comes_of_go (n ip : Nat) (m : Machine) (log : Array Record) :
    let r := Run.go c tracing n ip m log
    ∃ k, c.Comes k ip m r.outcome r.machine := by
  intro r
  obtain ⟨hnone, hpath⟩ | ⟨outcome, k, m₁, hsome, -, hpath, hends⟩ :=
    Run.path_of_go (c := c) tracing n ip m log
  · exact ⟨n, hnone ▸ hpath.comes .here⟩
  · exact ⟨k, hsome ▸ hpath.comes (.ends hends)⟩

theorem Comes.exists_go (h : c.Comes k ip m outcome m') (log : Array Record) :
    ∃ n, (Run.go c tracing n ip m log).outcome = outcome ∧
      (Run.go c tracing n ip m log).machine = m' := by
  induction h generalizing log with
  | here => exact ⟨0, rfl, rfl⟩
  | ends hends =>
      obtain ⟨log', hgo⟩ := Run.go_of_ends tracing hends 0 log
      exact ⟨0 + 1, by rw [hgo], by rw [hgo]⟩
  | step hlt hstep _ ih =>
      obtain ⟨traced, htraced⟩ := Run.exists_traced c tracing hlt _ log
      obtain ⟨n, hrest⟩ := ih traced
      refine ⟨n + 1, ?_⟩
      rw [Run.go, if_pos hlt, htraced]
      simpa only [hstep] using hrest

/-- Where the outcome of a run is known, the run has led to it. -/
theorem leads_iff_comes {outcome : Outcome} :
    c.Leads m outcome m' ↔ ∃ k, c.Comes k 0 m (some outcome) m' := by
  constructor
  · rintro ⟨n, ip, m₁, hpath, hends⟩
    exact ⟨n, hpath.comes (.ends hends)⟩
  · rintro ⟨k, hcomes⟩
    obtain ⟨n, houtcome, hmachine⟩ := hcomes.exists_go false #[]
    obtain ⟨hnone, -⟩ | ⟨last, j, m₁, hsome, -, hpath, hends⟩ :=
      Run.path_of_go (c := c) false n 0 m #[]
    · exact absurd (hnone.symm.trans houtcome) nofun
    · obtain rfl := Option.some.inj (hsome.symm.trans houtcome)
      rw [hmachine] at hends
      exact ⟨j, _, m₁, hpath, hends⟩

end Runs

/-- Whatever a run of `c` comes to from `ip` in fewer than `n` steps, a run of `d` comes to
from `jp`. -/
def Tracks (c d : Chunk) (n ip jp : Nat) : Prop :=
  ∀ k < n, ∀ m outcome m', c.Comes k ip m outcome m' → ∃ j outcome', d.Comes j jp m outcome' m' ∧
    outcome'.map Outcome.placeless = outcome.map Outcome.placeless

/-- For so many steps, runs from the two places come to the same. -/
def Meet (c d : Chunk) (n ip jp : Nat) : Prop :=
  c.Tracks d n ip jp ∧ d.Tracks c n jp ip

/-- Steps of the two chunks that change a machine in the same way, to places that meet. -/
inductive Beside (c d : Chunk) (n : Nat) :
    EStateM.Result Outcome Machine Nat → EStateM.Result Outcome Machine Nat → Prop
  | ok {ip jp : Nat} {m : Machine} (h : c.Meet d n ip jp) : Beside c d n (.ok ip m) (.ok jp m)
  | error {outcome outcome' : Outcome} {m : Machine} (h : outcome.placeless = outcome'.placeless) :
      Beside c d n (.error outcome m) (.error outcome' m)

theorem Meet.symm (h : c.Meet d n ip jp) : d.Meet c n jp ip :=
  And.symm h

theorem meet_zero : c.Meet d 0 ip jp :=
  ⟨nofun, nofun⟩

theorem Meet.mono (h : c.Meet d n ip jp) (hle : k ≤ n) : c.Meet d k ip jp :=
  ⟨fun i hi => h.1 i (hi.trans_le hle), fun i hi => h.2 i (hi.trans_le hle)⟩

theorem Beside.symm {result result' : EStateM.Result Outcome Machine Nat}
    (h : Beside c d n result result') : Beside d c n result' result := by
  cases h with
  | ok h => exact .ok h.symm
  | error h => exact .error h.symm

theorem tracks_of_step (hlt : ip < c.size) (hlt' : jp < d.size)
    (hsteps : ∀ m : Machine, Beside c d n (m.step c ip) (m.step d jp)) :
    c.Tracks d (n + 1) ip jp := by
  intro k hk m outcome m' hcomes
  have hone := hsteps m
  cases hcomes with
  | here => exact ⟨0, none, .here, rfl⟩
  | ends hends =>
      rw [hends.step_eq hlt] at hone
      generalize hother : m.step d jp = result at hone
      cases hone with
      | @error _ outcome' _ hsame =>
          exact ⟨0, some outcome', .ends (.stopped hlt' hother), congrArg some hsame.symm⟩
  | step _ hstep hrest =>
      rw [hstep] at hone
      generalize hother : m.step d jp = result at hone
      cases hone with
      | ok hmeet =>
          obtain ⟨j, outcome', hcomes, hsame⟩ := hmeet.1 _ (Nat.lt_of_succ_lt_succ hk) _ _ _ hrest
          exact ⟨j + 1, outcome', .step hlt' hother hcomes, hsame⟩

/-- One step on each side. -/
theorem meet_of_step (hlt : ip < c.size) (hlt' : jp < d.size)
    (hsteps : ∀ m : Machine, Beside c d n (m.step c ip) (m.step d jp)) : c.Meet d (n + 1) ip jp :=
  ⟨tracks_of_step hlt hlt' hsteps, tracks_of_step hlt' hlt fun m => (hsteps m).symm⟩

/-- A step that leaves every machine as it is and goes on elsewhere. -/
def Hops (c : Chunk) (ip ip₁ : Nat) : Prop :=
  ip < c.size ∧ ∀ m : Machine, m.step c ip = .ok ip₁ m

/-- A hop on one side takes none of the steps. -/
theorem Hops.meet (h : c.Hops ip ip₁) (hmeet : c.Meet d n ip₁ jp) : c.Meet d n ip jp := by
  obtain ⟨hlt, hall⟩ := h
  constructor
  · intro k hk m outcome m' hcomes
    cases hcomes with
    | here => exact ⟨0, none, .here, rfl⟩
    | ends hends =>
        have hfails := hends.step_eq hlt
        rw [hall] at hfails
        cases hfails
    | step _ hstep hrest =>
        rw [hall] at hstep
        cases hstep
        exact hmeet.1 _ (Nat.lt_of_succ_lt hk) _ _ _ hrest
  · intro k hk m outcome m' hcomes
    obtain ⟨j, outcome', hcomes, hsame⟩ := hmeet.2 k hk m outcome m' hcomes
    exact ⟨j + 1, outcome', .step hlt (hall m) hcomes, hsame⟩

/-- Nor do any number of hops. -/
theorem meet_of_hops (h : Relation.ReflTransGen c.Hops ip ip₁) (hmeet : c.Meet d n ip₁ jp) :
    c.Meet d n ip jp := by
  induction h using Relation.ReflTransGen.head_induction_on with
  | refl => exact hmeet
  | head hhop _ ih => exact hhop.meet ih

/-- Hops on both sides give a step. -/
theorem meet_succ_of_hops (h : Relation.TransGen c.Hops ip ip₁)
    (h' : Relation.TransGen d.Hops jp jp₁) (hmeet : c.Meet d n ip₁ jp₁) :
    c.Meet d (n + 1) ip jp := by
  obtain ⟨ip₂, hhop, hmore⟩ := Relation.TransGen.head'_iff.mp h
  obtain ⟨jp₂, hhop', hmore'⟩ := Relation.TransGen.head'_iff.mp h'
  have hbehind : c.Meet d n ip₂ jp₂ := meet_of_hops hmore (meet_of_hops hmore' hmeet.symm).symm
  apply meet_of_step hhop.1 hhop'.1
  intro m
  rw [hhop.2, hhop'.2]
  exact .ok hbehind

section Instructions

open Tree

variable {rest rest' : List Item}

theorem meet_straight {item item' : Item} {i : Instruction} (h : c.Runs ip (item :: rest))
    (h' : d.Runs jp (item' :: rest')) (hi : item.instruction? c.constants.toList = some i)
    (hi' : item'.instruction? d.constants.toList = some i) (hstraight : i.Straight)
    (hmeet : c.Meet d n (ip + item.size) (jp + item'.size)) : c.Meet d (n + 1) ip jp := by
  apply meet_of_step h.has.lt_size h'.has.lt_size
  intro m
  rw [h.step hi, h'.step hi']
  obtain ⟨m', hexec⟩ | ⟨stop, m', hexec⟩ := hstraight.exec m
  · simp only [hexec]
    exact .ok hmeet
  · simp only [hexec]
    exact .error (stop.placeless_outcome _ _)

/-- A test of the topmost value, which stays; the two jumps may be of different length. -/
theorem meet_test {distance distance' : Nat} (h : c.Runs ip (.jump .jumpIfFalse distance :: rest))
    (h' : d.Runs jp (.jump .jumpIfFalse distance' :: rest')) (hthen : c.Meet d n (ip + 3) (jp + 3))
    (helse : c.Meet d n (ip + 3 + distance) (jp + 3 + distance')) : c.Meet d (n + 1) ip jp := by
  apply meet_of_step h.has.lt_size h'.has.lt_size
  intro m
  rw [h.step rfl, h'.step rfl]
  have hexec (next distance : Nat) : (Instruction.jumpIfFalse distance).exec next =
      Exec.peek >>= fun v => pure (if v.isFalsey then next + distance else next) := rfl
  rw [hexec, hexec]
  cases hpeek : Exec.peek m with
  | ok v m' =>
      rw [bind_of_ok hpeek, bind_of_ok hpeek]
      cases hv : v.isFalsey with
      | true => exact .ok helse
      | false => exact .ok hthen
  | error stop m' =>
      rw [bind_of_error hpeek, bind_of_error hpeek]
      exact .error (stop.placeless_outcome _ _)

theorem Runs.hops_jump {distance : Nat} (h : c.Runs ip (.jump .jump distance :: rest)) :
    c.Hops ip (ip + 3 + distance) :=
  ⟨h.has.lt_size, fun m => h.step rfl m⟩

theorem Runs.hops_loop {distance : Nat} (h : c.Runs ip (.jump .loop distance :: rest))
    (hle : distance ≤ ip + 3) : c.Hops ip (ip + 3 - distance) := by
  refine ⟨h.has.lt_size, fun m => ?_⟩
  have hexec : (Instruction.loop distance).exec (ip + 3) m = .ok (ip + 3 - distance) m := by
    rw [Instruction.exec, if_pos hle]
    rfl
  rw [h.step rfl]
  simp only [Item.size, hexec]

theorem meet_ret (h : c.Has ip (.plain .ret :: rest)) (h' : d.Has jp (.plain .ret :: rest'))
    (n : Nat) :
    c.Meet d n ip jp := by
  refine Meet.mono (n := n + 1) ?_ (Nat.le_succ n)
  apply meet_of_step h.lt_size h'.lt_size
  intro m
  rw [h.step_ret, h'.step_ret]
  exact .error rfl

end Instructions

end Chunk

end StackScript
