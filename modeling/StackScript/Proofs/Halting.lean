import StackScript.Proofs.Machine.Ending
import StackScript.Proofs.Tree.LoopFree
import StackScript.Proofs.WellFormed

/-!
Programs without loops come to an end. No instruction of such a program jumps back, so every
step of a run leads further on in the code, and a run has no more steps than the code has bytes.
-/

namespace StackScript

open Tree

/-- An instruction that is no jump back goes on behind itself, or further on. -/
theorem Instruction.le_of_mem_targets {i : Instruction} (hloop : ∀ distance, i ≠ .loop distance)
    {next target : Nat} (h : target ∈ i.targets next) : next ≤ target := by
  cases i with
  | loop distance => exact absurd rfl (hloop distance)
  | jump distance =>
      rw [List.mem_singleton.mp h]
      exact Nat.le_add_right _ _
  | jumpIfFalse distance =>
      obtain rfl | h := List.mem_cons.mp h
      · exact Nat.le_add_right _ _
      · exact Nat.le_of_eq (List.mem_singleton.mp h).symm
  | ret => cases h
  | _ => exact Nat.le_of_eq (List.mem_singleton.mp h).symm

namespace Chunk

namespace Follows

variable {c : Chunk} {sites : List Site} (h : c.Follows sites) (hforward : Forward (itemsOf sites))
include h hforward

/-- Every step leads further on. -/
theorem lt_of_step {before behind : List Site} (hsplit : sites = before ++ behind)
    {m m' : Machine} {ip : Nat} (hstep : m.step c (sitesSize before) = .ok ip m') :
    sitesSize before < ip := by
  cases behind with
  | nil =>
      rw [List.append_nil] at hsplit
      rw [← hsplit, h.step_ret] at hstep
      cases hstep
  | cons site behind =>
      obtain ⟨i, hi, htarget⟩ := h.exists_target_of_step hsplit hstep
      have hop : site.item.op ≠ .loop := hforward _ (by rw [hsplit]; simp)
      have hloop : ∀ distance, i ≠ .loop distance := by
        rintro distance rfl
        rw [Item.eq_loop_of_instruction hi] at hop
        exact hop rfl
      have hbehind := Instruction.le_of_mem_targets hloop htarget
      have hpos := site.item.size_pos
      rw [sitesSize_append, sitesSize_cons] at hbehind
      omega

/-- A path leads on by at least one byte for each of its steps. -/
theorem add_le_of_path {n ip ip' : Nat} {m m' : Machine} (hpath : c.Path n ip m ip' m')
    (hreaches : ∃ height, Reaches sites ip height) : ip + n ≤ ip' := by
  induction hpath with
  | nil => exact Nat.le_refl _
  | cons hlt hstep hrest ih =>
      have hnext := h.exists_reaches_of_step hreaches hstep
      obtain ⟨_, before, behind, hsplit, rfl, -⟩ := hreaches
      have hfurther := h.lt_of_step hforward hsplit hstep
      have hbehind := ih hnext
      omega

/-- The instructions of a run stand one behind the other. -/
theorem ip_lt_of_run (tracing : Bool) (m : Machine) {i j : Nat} (hlt : i < j)
    (hgoes : ((Run.start c tracing m).advance j).outcome = none) :
    ((Run.start c tracing m).advance i).ip < ((Run.start c tracing m).advance j).ip := by
  obtain ⟨k, rfl⟩ := Nat.exists_eq_add_of_lt hlt
  obtain ⟨hfirst, hbetween⟩ := Run.path_between (c := c) tracing (n := i) (k := k + 1) hgoes
  have hfurther := h.add_le_of_path hforward hbetween (h.reaches_of_path hfirst)
  exact Nat.lt_of_lt_of_le (Nat.lt_add_of_pos_right (Nat.succ_pos k)) hfurther

/-- A run has no more steps than the code has bytes. -/
theorem ends_of_size_le (tracing : Bool) (m : Machine) {fuel : Nat} (hfuel : c.size ≤ fuel) :
    ((Run.start c tracing m).advance fuel).outcome ≠ none := by
  intro hgoes
  have hpath := Run.path_of_goes (c := c) tracing hgoes
  have hfar := h.add_le_of_path hforward hpath ⟨_, [], sites, rfl, rfl, rfl⟩
  obtain ⟨_, before, behind, hsplit, hip, -⟩ := h.reaches_of_path hpath
  have hwithin := h.lt_size hsplit
  omega

end Follows

end Chunk

/-- A program without `while` and `for` runs to its end on any machine, with no more fuel than
its code has bytes. Until then every instruction that it comes to stands behind the one before,
so it executes none of them twice, and it never takes an operand for an instruction. -/
theorem loopFree_halts {source : String} {c : Chunk} (hc : compile source = .ok c)
    (hfree : ∀ t ∈ Token.scan source, t.kind ≠ .whileWord ∧ t.kind ≠ .forWord) (tracing : Bool)
    (m : Machine) :
    (∀ fuel, c.size ≤ fuel → (m.runChunk fuel tracing c).isSome) ∧
      (∀ n, c.Boundary ((Run.start c tracing m).advance n).ip) ∧
      ∀ i j, i < j → ((Run.start c tracing m).advance j).outcome = none →
        ((Run.start c tracing m).advance i).ip < ((Run.start c tracing m).advance j).ip := by
  obtain ⟨tree, htree, hadmissible, hencodes⟩ := exists_tree_of_compile hc
  obtain ⟨sites, hfollows, hitems, -⟩ := hencodes.exists_follows htree hadmissible
  have hforward : Forward (itemsOf sites) := by
    rw [hitems]
    exact Stmt.forward_code _ (htree.loopFree hfree) _ _
  refine ⟨?_, ?_, ?_⟩
  · intro fuel hfuel
    have hends := hfollows.ends_of_size_le hforward tracing m hfuel
    unfold Machine.runChunk
    rw [Option.isSome_map]
    exact Option.isSome_iff_ne_none.mpr hends
  · intro n
    obtain ⟨before, behind, hsplit, hip⟩ := hfollows.exists_split_of_run tracing m n
    rw [hip]
    exact hfollows.boundary hsplit
  · intro i j hlt hgoes
    exact hfollows.ip_lt_of_run hforward tracing m hlt hgoes

/-- A choice, with a condition that is one, too. -/
theorem loopFree_halts_choice :
    ∃ c, compile "var a; if (a or true) print a; else a = nil;" = .ok c ∧
    (∀ t ∈ Token.scan "var a; if (a or true) print a; else a = nil;",
      t.kind ≠ .whileWord ∧ t.kind ≠ .forWord) ∧
    ∀ (tracing : Bool) (m : Machine),
      (∀ fuel, c.size ≤ fuel → (m.runChunk fuel tracing c).isSome) ∧
        (∀ n, c.Boundary ((Run.start c tracing m).advance n).ip) ∧
        ∀ i j, i < j → ((Run.start c tracing m).advance j).outcome = none →
          ((Run.start c tracing m).advance i).ip < ((Run.start c tracing m).advance j).ip := by
  obtain ⟨c, hc⟩ := exists_of_isOk
    (show (compile "var a; if (a or true) print a; else a = nil;").isOk = true by decide +kernel)
  have hfree : ∀ t ∈ Token.scan "var a; if (a or true) print a; else a = nil;",
      t.kind ≠ .whileWord ∧ t.kind ≠ .forWord := by decide +kernel
  exact ⟨c, hc, hfree, loopFree_halts hc hfree⟩

end StackScript
