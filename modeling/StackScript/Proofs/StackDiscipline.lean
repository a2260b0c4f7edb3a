import StackScript.Proofs.Compiler.Visits
import StackScript.Proofs.WellFormed

/-!
The stack of a compiled chunk. Every offset has one height, and whenever a run from an
empty stack comes to the offset, by whatever branches and however often, the stack has
that height. Slots stay below it, and nothing is taken from an empty stack.
-/

namespace StackScript

open Tree

namespace Tree

/-- The height at an offset that some sites reach. -/
def heightAt : List Site → Nat → Nat
  | [], _ => 0
  | site :: rest, offset =>
      if offset = 0 then site.height else heightAt rest (offset - site.item.size)

theorem heightAt_of_split (before behind : List Site) :
    heightAt (before ++ behind) (sitesSize before) = heightFrom 0 behind := by
  induction before with
  | nil => cases behind <;> rfl
  | cons site before ih =>
      have hpos := site.item.size_pos
      rw [List.cons_append, heightAt, sitesSize_cons, if_neg (by omega), Nat.add_sub_cancel_left,
        ih]

/-- A start of the code has its height. -/
theorem Starts.heightAt {sites : List Site} {starts : List (Nat × Nat)}
    (h : Starts 0 sites starts) :
    ∀ start ∈ starts, heightAt sites start.1 = start.2 := by
  intro start hmem
  obtain ⟨before, behind, rfl, hoffset, hheight⟩ := h start hmem
  rw [hoffset, heightAt_of_split, hheight]

end Tree

namespace Chunk

theorem Reaches.heightAt {sites : List Site} {offset height : Nat}
    (h : Reaches sites offset height) :
    heightAt sites offset = height := by
  obtain ⟨before, behind, rfl, rfl, rfl⟩ := h
  exact heightAt_of_split before behind

namespace Follows

variable {c : Chunk} {sites : List Site} (h : c.Follows sites)
include h

/-- A step from a stack of the right height leads to one of the right height. -/
theorem reaches_of_step {ip ip' : Nat} {m m' : Machine} (hreaches : Reaches sites ip m.stack.height)
    (hstep : m.step c ip = .ok ip' m') : Reaches sites ip' m'.stack.height := by
  obtain ⟨before, behind, hsplit, rfl, hheight⟩ := hreaches
  cases behind with
  | nil =>
      rw [List.append_nil] at hsplit
      rw [← hsplit, h.step_ret] at hstep
      cases hstep
  | cons site behind =>
      rcases h.moved hsplit m with ⟨ip, m'', hone, height, hreaches, hmoved⟩ | ⟨_, _, hone, -⟩
      · rw [hone] at hstep
        obtain ⟨rfl, rfl⟩ := EStateM.Result.ok.inj hstep
        rwa [hmoved hheight.symm]
      · rw [hone] at hstep
        cases hstep

theorem reaches_start : Reaches sites 0 0 :=
  ⟨[], sites, rfl, rfl, h.start⟩

/-- Along a path from an empty stack, the stack always has the height of its offset. -/
theorem height_of_path {n ip : Nat} {m m' : Machine} (hpath : c.Path n 0 m ip m')
    (hempty : m.stack.height = 0) : Reaches sites ip m'.stack.height :=
  hpath.preserves (P := fun ip m => Reaches sites ip m.stack.height)
    (fun _ _ _ _ _ hreaches hstep => h.reaches_of_step hreaches hstep) (hempty ▸ h.reaches_start)

/-- A local that is loaded or stored with a stack of the right height is in use. -/
theorem slot_lt_of_fetch {ip height : Nat} {i : Instruction} {slot : UInt8}
    (hreaches : Reaches sites ip height) (hfetch : (c.fetch ip).result = .ok i)
    (hlocal : i = .getLocal slot ∨ i = .setLocal slot) : slot.toNat < height := by
  obtain ⟨before, behind, hsplit, rfl, hheight⟩ := hreaches
  cases behind with
  | nil =>
      rw [List.append_nil] at hsplit
      rw [← hsplit, h.has_ret.fetch_instruction (i := .ret) rfl nofun] at hfetch
      obtain rfl := Except.ok.inj hfetch
      rcases hlocal with hi | hi <;> cases hi
  | cons site behind =>
      have hflows := h.flows hsplit
      obtain ⟨i, hi, hsite⟩ := h.exists_fetch hsplit
      rw [hsite] at hfetch
      obtain rfl := Except.ok.inj hfetch
      obtain ⟨op, hop, hitem⟩ := Item.exists_local_of_instruction hi hlocal
      rw [← hheight]
      exact hflows.slot op slot hitem hop

/-- No step from a stack of the right height fails for want of values. -/
theorem not_underflow_of_step {ip : Nat} {m m' : Machine} {e : RuntimeError}
    (hreaches : Reaches sites ip m.stack.height) (hstep : m.step c ip = .error (.failed e) m') :
    e.fault ≠ .stackUnderflow := by
  obtain ⟨before, behind, hsplit, rfl, hheight⟩ := hreaches
  cases behind with
  | nil =>
      rw [List.append_nil] at hsplit
      rw [← hsplit, h.step_ret] at hstep
      cases hstep
  | cons site behind =>
      rcases h.moved hsplit m with ⟨_, _, hone, -⟩ | ⟨outcome, m'', hone, -, hproper⟩
      · rw [hone] at hstep
        cases hstep
      · rw [hone] at hstep
        obtain ⟨rfl, -⟩ := EStateM.Result.error.inj hstep
        exact (hproper e rfl).2 hheight.symm

/-- The operand of every access to a local is a slot in use. -/
theorem slot_lt {offset : Nat} {op : Opcode} {slot : UInt8} (hboundary : c.Boundary offset)
    (hop : c.opAt? offset = some op) (hlocal : op ∈ [.getLocal, .setLocal])
    (hslot : c.code[offset + 1]? = some slot) : slot.toNat < heightAt sites offset := by
  have hne : op ≠ .ret ∧ op.operandBytes = 1 := by
    simp only [List.mem_cons, List.not_mem_nil, or_false] at hlocal
    rcases hlocal with rfl | rfl <;> decide
  obtain ⟨before, site, behind, hsplit, rfl, rfl⟩ := h.site_of_opAt hboundary hop hne.1
  have hflows := h.flows hsplit
  obtain ⟨byte, hitem⟩ := hflows.made.shaped.exists_operand hne.2
  have hhas : c.Has (sitesSize before) (site.item :: (itemsOf behind ++ [.plain .ret])) :=
    h.has hsplit
  rw [hitem] at hhas
  obtain rfl := Option.some.inj (hhas.byte.symm.trans hslot)
  rw [hsplit, heightAt_of_split]
  exact hflows.slot _ byte hitem hlocal

/-- The last instruction returns from an empty stack. -/
theorem heightAt_last : heightAt sites (c.size - 1) = 0 := by
  have hlast := heightAt_of_split sites []
  rw [List.append_nil, heightFrom_nil] at hlast
  rw [h.size_eq, Nat.add_sub_cancel]
  exact hlast

end Follows

end Chunk

/-- The stack discipline of compiled chunks. Every offset has a height that the stack has
in every run from an empty stack when that offset is dispatched, and no such run fails for
want of values. Slots are below the height of their instruction, each declaration starts
at the number of locals that the compiler has there, and the stack is empty at the end. -/
theorem compiled_stackDiscipline {source : String} {c : Chunk} (hc : compile source = .ok c) :
    ∃ height : Nat → Nat,
      (∀ (tracing : Bool) (m : Machine) (n : Nat), m.stack.height = 0 →
        let r := (Run.start c tracing m).advance n
        (r.outcome = none → r.machine.stack.height = height r.ip) ∧
          ∀ e, r.outcome = some (.failed e) → e.fault ≠ .stackUnderflow) ∧
      (∀ (offset : Nat) (op : Opcode) (slot : UInt8), c.Boundary offset → c.opAt? offset = some op →
        op ∈ [.getLocal, .setLocal] → c.code[offset + 1]? = some slot →
        slot.toNat < height offset) ∧
      (∀ b : Builder, Builder.VisitsDeclaration (Token.scan source) b →
        height b.chunk.size = b.locals.length) ∧
      height (c.size - 1) = 0 := by
  obtain ⟨tree, htree, hadmissible, hencodes⟩ := exists_tree_of_compile hc
  obtain ⟨sites, hfollows, -, hstarts⟩ := hencodes.exists_follows htree hadmissible
  obtain ⟨-, -, -, -, -, hspelled⟩ := Token.scan_eq source
  refine ⟨heightAt sites, ?_, fun offset op slot => hfollows.slot_lt, ?_, hfollows.heightAt_last⟩
  · intro tracing m n hempty r
    rcases Run.path_of_go (c := c) tracing n 0 m #[] with
      ⟨hnone, hpath⟩ | ⟨outcome, k, m', hsome, -, hpath, hends⟩
    · refine ⟨fun _ => (hfollows.height_of_path hpath hempty).heightAt.symm, fun e he => ?_⟩
      exact absurd (hnone.symm.trans he) (by simp)
    · refine ⟨fun hnone => absurd (hsome.symm.trans hnone) (by simp), fun e he => ?_⟩
      obtain rfl := Option.some.inj (hsome.symm.trans he)
      cases hends with
      | stopped _ hstep =>
          exact hfollows.not_underflow_of_step (hfollows.height_of_path hpath hempty) hstep
  · intro b hvisits
    obtain ⟨start, hmem, hsize, hlocals⟩ :=
      Builder.started_of_visits htree hspelled hadmissible hvisits
    rw [hsize, hlocals]
    exact hstarts.heightAt start hmem

/-- A local in a block inside a block. -/
theorem compiled_stackDiscipline_blocks :
    ∃ c, compile "{ var a; { var b = a; print b; } }" = .ok c ∧
    ∃ height : Nat → Nat,
      (∀ (tracing : Bool) (m : Machine) (n : Nat), m.stack.height = 0 →
        let r := (Run.start c tracing m).advance n
        (r.outcome = none → r.machine.stack.height = height r.ip) ∧
          ∀ e, r.outcome = some (.failed e) → e.fault ≠ .stackUnderflow) ∧
      (∀ (offset : Nat) (op : Opcode) (slot : UInt8), c.Boundary offset → c.opAt? offset = some op →
        op ∈ [.getLocal, .setLocal] → c.code[offset + 1]? = some slot →
        slot.toNat < height offset) ∧
      (∀ b : Builder,
        Builder.VisitsDeclaration (Token.scan "{ var a; { var b = a; print b; } }") b →
        height b.chunk.size = b.locals.length) ∧
      height (c.size - 1) = 0 := by
  obtain ⟨c, hc⟩ := exists_of_isOk
    (show (compile "{ var a; { var b = a; print b; } }").isOk = true by decide +kernel)
  exact ⟨c, hc, compiled_stackDiscipline hc⟩

end StackScript
