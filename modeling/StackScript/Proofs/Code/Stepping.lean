import StackScript.Proofs.Code.Decode
import StackScript.Proofs.Machine.Path

/-!
Runs of code whose sites are known. Every step leads from one site to another, or to the
instruction that returns, and if the stack has the height of the one site it has the
height of the other afterwards.
-/

namespace StackScript

open Tree

namespace Chunk

/-- The code is that of the sites, and the instruction that returns. -/
structure Follows (c : Chunk) (sites : List Site) : Prop where
  code : c.code.toList = bytesOf (itemsOf sites ++ [.plain .ret])
  flow : Flow c.constants.toList 0 [] sites []
  start : heightFrom 0 sites = 0
  fits : ∀ op distance, Item.jump op distance ∈ itemsOf sites → distance ≤ Builder.distanceMax

/-- The offset stands before some of the sites, or behind them all, with this height. -/
def Reaches (sites : List Site) (offset height : Nat) : Prop :=
  ∃ before behind, sites = before ++ behind ∧ offset = sitesSize before ∧
    heightFrom 0 behind = height

namespace Follows

variable {c : Chunk} {sites : List Site} (h : c.Follows sites)
include h

theorem size_eq : c.size = sitesSize sites + 1 := by
  have hsize := size_of_code h.code
  rw [hsize, codeSize_append, codeSize_cons, codeSize_nil]
  rfl

theorem flows {before behind : List Site} {site : Site}
    (hsplit : sites = before ++ site :: behind) :
    site.Flows c.constants.toList 0 before behind := by
  have hsite := h.flow before site behind hsplit
  rwa [List.nil_append, List.append_nil] at hsite

theorem has {before behind : List Site} (hsplit : sites = before ++ behind) :
    c.Has (sitesSize before) (itemsOf behind ++ [.plain .ret]) := by
  refine has_of_split h.code ?_
  rw [hsplit, itemsOf_append, List.append_assoc]

/-- The last instruction returns. -/
theorem has_ret : c.Has (sitesSize sites) [.plain .ret] :=
  h.has (List.append_nil sites).symm

theorem lt_size {before behind : List Site} (hsplit : sites = before ++ behind) :
    sitesSize before < c.size := by
  rw [h.size_eq, hsplit, sitesSize_append]
  omega

/-- At a site its instruction is fetched. -/
theorem exists_fetch {before behind : List Site} {site : Site}
    (hsplit : sites = before ++ site :: behind) : ∃ i,
      site.item.instruction? c.constants.toList = some i ∧
        c.fetch (sitesSize before) = ⟨sitesSize (before ++ [site]), .ok i⟩ := by
  have hmem : site.item ∈ itemsOf sites := by rw [hsplit]; simp
  have hhas : c.Has (sitesSize before) (site.item :: (itemsOf behind ++ [.plain .ret])) :=
    h.has hsplit
  obtain ⟨i, hi⟩ := (h.flows hsplit).made.exists_instruction
  have hnext : sitesSize (before ++ [site]) = sitesSize before + site.item.size := by
    rw [sitesSize_append, sitesSize_cons, sitesSize_nil, Nat.add_zero]
  rw [hnext]
  exact ⟨i, hi, hhas.fetch_instruction hi fun op distance hitem =>
    h.fits op distance (hitem ▸ hmem)⟩

/-- Where an instruction goes on, there is a site of the right height. -/
theorem targets_reached {before behind : List Site} {site : Site}
    (hsplit : sites = before ++ site :: behind) {i : Instruction}
    (hi : site.item.instruction? c.constants.toList = some i) :
    ∀ target ∈ i.targets (sitesSize (before ++ [site])), ∃ height, Reaches sites target height ∧
      height + site.item.op.pops = site.height + site.item.op.pushes := by
  obtain ⟨hmade, -, -, hfalls, hleaps, hloops⟩ := h.flows hsplit
  have hbehind : Reaches sites (sitesSize (before ++ [site])) (heightFrom 0 behind) :=
    ⟨before ++ [site], behind, by rw [hsplit, List.append_assoc]; rfl, rfl, rfl⟩
  by_cases hjump : ∃ op distance, site.item = .jump op distance
  rotate_left
  · intro target htarget
    have hnot : ∀ op distance, site.item ≠ .jump op distance := fun op distance hitem =>
      hjump ⟨op, distance, hitem⟩
    rw [Item.targets_of_instruction hi hmade.stays hnot] at htarget
    rw [List.mem_singleton.mp htarget]
    refine ⟨_, hbehind, hfalls fun hop => ?_⟩
    have hshaped := hmade.shaped
    cases hitem : site.item with
    | jump op distance => exact hnot op distance hitem
    | plain op | operand op byte =>
        rw [hitem] at hop hshaped
        simp only [Item.op, List.mem_cons, List.not_mem_nil, or_false] at hop
        rcases hop with rfl | rfl <;> cases hshaped
  · obtain ⟨op, distance, hitem⟩ := hjump
    have hover (hop : op ≠ .loop) :
        ∃ height, Reaches sites (sitesSize (before ++ [site]) + distance) height ∧
          height = site.height := by
      obtain ⟨skipped, rest, rfl, rfl, hheight⟩ := hleaps op distance hitem hop
      refine ⟨_, ⟨before ++ site :: skipped, rest, ?_, ?_, rfl⟩, hheight⟩
      · rw [hsplit, List.append_assoc]
        rfl
      · simp only [sitesSize_append, sitesSize_cons, sitesSize_nil]
        omega
    rw [hitem] at hi hfalls ⊢
    cases op <;> simp only [Item.instruction?, Option.some.injEq, reduceCtorEq] at hi
    case jump =>
      obtain rfl := hi
      intro target htarget
      rw [List.mem_singleton.mp htarget]
      obtain ⟨height, hreaches, rfl⟩ := hover (by decide)
      exact ⟨_, hreaches, rfl⟩
    case jumpIfFalse =>
      obtain rfl := hi
      intro target htarget
      rcases List.mem_cons.mp htarget with rfl | htarget
      · obtain ⟨height, hreaches, rfl⟩ := hover (by decide)
        exact ⟨_, hreaches, rfl⟩
      · rw [List.mem_singleton.mp htarget]
        exact ⟨_, hbehind, hfalls (by simp [Item.op])⟩
    case loop =>
      obtain rfl := hi
      obtain ⟨front, skipped, rfl, rfl, hheight⟩ := hloops distance hitem
      intro target htarget
      rw [List.mem_singleton.mp htarget]
      refine ⟨site.height, ⟨front, skipped ++ site :: behind, ?_, ?_, ?_⟩, rfl⟩
      · rw [hsplit, List.append_assoc]
      · simp only [sitesSize_append, sitesSize_cons, sitesSize_nil, hitem, Item.size]
        omega
      · rwa [heightFrom_append]

/-- No jump back leads before the start of the code. -/
theorem loop_within {before behind : List Site} {site : Site}
    (hsplit : sites = before ++ site :: behind) {i : Instruction}
    (hi : site.item.instruction? c.constants.toList = some i) :
    ∀ distance, i = .loop distance → distance ≤ sitesSize (before ++ [site]) := by
  rintro distance rfl
  obtain ⟨-, -, -, -, -, hloops⟩ := h.flows hsplit
  have hitem : site.item = .jump .loop distance := Item.eq_loop_of_instruction hi
  obtain ⟨front, skipped, rfl, rfl, -⟩ := hloops distance hitem
  simp only [sitesSize_append, sitesSize_cons, sitesSize_nil, hitem, Item.size]
  omega

/-- One step from a site. -/
theorem moved {before behind : List Site} {site : Site} (hsplit : sites = before ++ site :: behind)
    (m : Machine) :
    (∃ ip m', m.step c (sitesSize before) = .ok ip m' ∧ ∃ height, Reaches sites ip height ∧
        (m.stack.height = site.height → m'.stack.height = height)) ∨
      ∃ outcome m', m.step c (sitesSize before) = .error outcome m' ∧ outcome ≠ .finished ∧
        ∀ e, outcome = .failed e → ¬ e.fault.Malformed ∧
          (m.stack.height = site.height → e.fault ≠ .stackUnderflow) := by
  obtain ⟨hmade, henough, -, -, -, -⟩ := h.flows hsplit
  obtain ⟨i, hi, hfetch⟩ := h.exists_fetch hsplit
  obtain ⟨hpops, hpushes⟩ := Item.effect_of_instruction hi
  have hstays : i ≠ .ret := fun hret => hmade.stays (Item.op_eq_ret_of_instruction (hret ▸ hi))
  have hmoves := i.exec_moves (sitesSize (before ++ [site])) hstays (h.loop_within hsplit hi) m
  rw [Machine.step_of_fetch hfetch]
  cases hexec : i.exec (sitesSize (before ++ [site])) m with
  | ok ip m' =>
      rw [hexec] at hmoves
      obtain ⟨htarget, henough', hheight⟩ := hmoves
      obtain ⟨height, hreaches, hbalance⟩ := h.targets_reached hsplit hi ip htarget
      exact Or.inl ⟨ip, m', rfl, height, hreaches, fun hsame => by omega⟩
  | error stop m' =>
      rw [hexec] at hmoves
      refine Or.inr ⟨_, m', rfl, fun hfinished => ?_, fun e he => ?_⟩
      · cases stop with
        | returned => exact hmoves rfl
        | _ => cases hfinished
      cases stop with
      | fault f =>
          obtain rfl := Outcome.failed.inj he
          obtain ⟨hproper, hunder⟩ := hmoves
          exact ⟨hproper, fun hsame hempty => by have := hunder hempty; omega⟩
      | _ => cases he

/-- A step from a site goes on at one of the targets of its instruction. -/
theorem exists_target_of_step {before behind : List Site} {site : Site}
    (hsplit : sites = before ++ site :: behind) {m m' : Machine} {ip : Nat}
    (hstep : m.step c (sitesSize before) = .ok ip m') : ∃ i,
      site.item.instruction? c.constants.toList = some i ∧
        ip ∈ i.targets (sitesSize (before ++ [site])) := by
  obtain ⟨i, hi, hfetch⟩ := h.exists_fetch hsplit
  have hstays : i ≠ .ret := fun hret =>
    (h.flows hsplit).made.stays (Item.op_eq_ret_of_instruction (hret ▸ hi))
  have hmoves := i.exec_moves (sitesSize (before ++ [site])) hstays (h.loop_within hsplit hi) m
  refine ⟨i, hi, ?_⟩
  rw [Machine.step_of_fetch hfetch] at hstep
  cases hexec : i.exec (sitesSize (before ++ [site])) m with
  | error stop m₁ =>
      rw [hexec] at hstep
      cases hstep
  | ok ip₁ m₁ =>
      rw [hexec] at hstep hmoves
      obtain ⟨rfl, -⟩ := EStateM.Result.ok.inj hstep
      exact hmoves.1

/-- The step at the end of the code. -/
theorem step_ret (m : Machine) : m.step c (sitesSize sites) = .error .finished m :=
  h.has_ret.step_ret m

end Follows

end Chunk

end StackScript
