import StackScript.Proofs.Compiler.Program
import StackScript.Proofs.Code.Balance
import StackScript.Proofs.Code.Fetching
import StackScript.Proofs.Code.Stepping

/-!
Compiled chunks are well formed: complete instructions from the first byte to the last,
constants where operands name them, and jumps between instructions. So no run of such a
chunk, from whatever machine, meets malformed code.
-/

namespace StackScript

open Tree

namespace Tree.Item.Shaped

theorem exists_operand {item : Item} (h : item.Shaped) (hbytes : item.op.operandBytes = 1) :
    ∃ byte, item = .operand item.op byte := by
  unfold Item.Shaped at h
  rw [hbytes] at h
  cases item with
  | operand op byte => exact ⟨byte, rfl⟩
  | plain op | jump op distance => cases h

theorem exists_jump {item : Item} (h : item.Shaped) (hbytes : item.op.operandBytes = 2) :
    ∃ distance, item = .jump item.op distance := by
  unfold Item.Shaped at h
  rw [hbytes] at h
  cases item with
  | jump op distance => exact ⟨distance, rfl⟩
  | plain op | operand op byte => cases h

end Tree.Item.Shaped

namespace Chunk

namespace Follows

variable {c : Chunk} {sites : List Site} (h : c.Follows sites)
include h

theorem shaped : ∀ item ∈ itemsOf sites ++ [.plain .ret], item.Shaped := by
  intro item hitem
  rcases List.mem_append.mp hitem with hitem | hitem
  · obtain ⟨site, hsite, rfl⟩ := List.mem_map.mp hitem
    obtain ⟨before, behind, hsplit⟩ := List.append_of_mem hsite
    exact (h.flows hsplit).made.shaped
  · rw [List.mem_singleton.mp hitem]
    rfl

theorem boundary {before behind : List Site} (hsplit : sites = before ++ behind) :
    c.Boundary (sitesSize before) := by
  refine (boundary_iff h.code h.shaped).mpr ⟨itemsOf before, itemsOf behind ++ [.plain .ret], ?_,
    rfl⟩
  rw [hsplit, itemsOf_append, List.append_assoc]

/-- A boundary within the code is that of a site, or of the instruction that returns. -/
theorem split_of_boundary {offset : Nat} (hboundary : c.Boundary offset) (hlt : offset < c.size) :
    (∃ before site behind, sites = before ++ site :: behind ∧ offset = sitesSize before) ∨
      offset = sitesSize sites := by
  obtain ⟨before, item, behind, hsplit, rfl⟩ :=
    exists_item_of_boundary h.code h.shaped hboundary hlt
  rcases List.append_eq_append_iff.mp hsplit with ⟨more, rfl, hret⟩ | ⟨more, hitems, hrest⟩
  · cases more with
    | nil => exact Or.inr (by rw [List.append_nil]; rfl)
    | cons _ more => simp at hret
  · obtain ⟨front, back, rfl, rfl, rfl⟩ := List.map_eq_append_iff.mp hitems
    cases back with
    | nil => exact Or.inr (by rw [List.append_nil]; rfl)
    | cons site back => exact Or.inl ⟨front, site, back, rfl, rfl⟩

/-- At a boundary with an opcode other than that of the last instruction stands a site. -/
theorem site_of_opAt {offset : Nat} {op : Opcode} (hboundary : c.Boundary offset)
    (hop : c.opAt? offset = some op) (hne : op ≠ .ret) :
    ∃ before site behind, sites = before ++ site :: behind ∧ offset = sitesSize before ∧
      site.item.op = op := by
  have hlt : offset < c.size := lt_size_of_opAt? hop
  rcases h.split_of_boundary hboundary hlt with ⟨before, site, behind, hsplit, rfl⟩ | rfl
  · have hhas : c.Has (sitesSize before) (site.item :: (itemsOf behind ++ [.plain .ret])) :=
      h.has hsplit
    exact ⟨before, site, behind, hsplit, rfl, Option.some.inj (hhas.opAt?.symm.trans hop)⟩
  · exact absurd (Option.some.inj (h.has_ret.opAt?.symm.trans hop)).symm hne

theorem wellFormed : c.WellFormed where
  covers := by
    refine (boundary_iff h.code h.shaped).mpr ⟨_, [], (List.append_nil _).symm, ?_⟩
    exact size_of_code h.code
  returns := ⟨sitesSize sites, h.boundary (List.append_nil sites).symm, h.size_eq.symm,
    h.has_ret.opAt?⟩
  returnsOnce := by
    intro offset hboundary hop
    have hlt : offset < c.size := lt_size_of_opAt? hop
    rcases h.split_of_boundary hboundary hlt with ⟨before, site, behind, hsplit, rfl⟩ | rfl
    · have hhas : c.Has (sitesSize before) (site.item :: (itemsOf behind ++ [.plain .ret])) :=
        h.has hsplit
      have hret : site.item.op = .ret := Option.some.inj (hhas.opAt?.symm.trans hop)
      exact absurd hret (h.flows hsplit).made.stays
    · exact h.size_eq.symm
  complete := by
    intro offset hboundary hlt
    rcases h.split_of_boundary hboundary hlt with ⟨before, site, behind, hsplit, rfl⟩ | rfl
    · have hhas : c.Has (sitesSize before) (site.item :: (itemsOf behind ++ [.plain .ret])) :=
        h.has hsplit
      have hshaped : site.item.size = 1 + site.item.op.operandBytes := (h.flows hsplit).made.shaped
      have hpos := site.item.size_pos
      have hle := (has_cons.mp hhas).1.le_size (by simpa using hpos)
      simp only [codeSize_cons, codeSize_nil] at hle
      exact ⟨_, hhas.opAt?, by omega⟩
    · exact ⟨_, h.has_ret.opAt?, Nat.le_of_eq h.size_eq.symm⟩
  constants := by
    intro offset op hboundary hop hmem
    have hne : op ≠ .ret := by
      rintro rfl
      simp at hmem
    obtain ⟨before, site, behind, hsplit, rfl, rfl⟩ := h.site_of_opAt hboundary hop hne
    have hmade := (h.flows hsplit).made
    have hbytes : site.item.op.operandBytes = 1 := by
      simp only [List.mem_cons, List.not_mem_nil, or_false] at hmem
      rcases hmem with heq | heq | heq | heq <;> rw [heq] <;> rfl
    obtain ⟨byte, hitem⟩ := hmade.shaped.exists_operand hbytes
    obtain ⟨v, hv, hname⟩ := hmade.refers _ byte hitem hmem
    have hhas : c.Has (sitesSize before) (site.item :: (itemsOf behind ++ [.plain .ret])) :=
      h.has hsplit
    rw [hitem] at hhas
    rw [Array.getElem?_toList] at hv
    exact ⟨byte, v, hhas.byte, hv, hname⟩
  forward := by
    intro offset op hboundary hop hmem
    have hjump : op = .jump ∨ op = .jumpIfFalse := by simpa using hmem
    have hne : op ≠ .ret ∧ op ≠ .loop ∧ op.operandBytes = 2 := by
      rcases hjump with rfl | rfl <;> decide
    obtain ⟨before, site, behind, hsplit, rfl, rfl⟩ := h.site_of_opAt hboundary hop hne.1
    have hflows := h.flows hsplit
    obtain ⟨distance, hitem⟩ := hflows.made.shaped.exists_jump hne.2.2
    obtain ⟨skipped, rest, rfl, rfl, -⟩ := hflows.leaps _ distance hitem hne.2.1
    have hhas : c.Has (sitesSize before)
      (site.item :: (itemsOf (skipped ++ rest) ++ [.plain .ret])) :=
      h.has hsplit
    rw [hitem] at hhas
    have hmem : Item.jump site.item.op (sitesSize skipped) ∈ itemsOf sites := by
      rw [hsplit, ← hitem]
      simp
    have htarget : sites = (before ++ site :: skipped) ++ rest := by
      rw [hsplit, List.append_assoc]
      rfl
    have hoffset :
        sitesSize (before ++ site :: skipped) = sitesSize before + 3 + sitesSize skipped := by
      rw [sitesSize_append, sitesSize_cons, hitem, ← Nat.add_assoc]
      rfl
    refine ⟨sitesSize skipped, hhas.wordAt? (h.fits _ _ hmem), ?_, ?_⟩
    · exact hoffset ▸ h.boundary htarget
    · exact hoffset ▸ h.lt_size htarget
  backward := by
    intro offset hboundary hop
    obtain ⟨before, site, behind, hsplit, rfl, hloop⟩ := h.site_of_opAt hboundary hop (by decide)
    have hflows := h.flows hsplit
    obtain ⟨distance, hitem⟩ := hflows.made.shaped.exists_jump (by rw [hloop]; rfl)
    rw [hloop] at hitem
    obtain ⟨front, skipped, rfl, rfl, -⟩ := hflows.loops distance hitem
    have hhas : c.Has (sitesSize (front ++ skipped))
        (site.item :: (itemsOf behind ++ [.plain .ret])) := h.has hsplit
    rw [hitem] at hhas
    have hmem : Item.jump .loop (sitesSize skipped + 3) ∈ itemsOf sites := by
      rw [hsplit, ← hitem]
      simp
    have htarget : sites = front ++ (skipped ++ site :: behind) := by rw [hsplit, List.append_assoc]
    have hoffset :
        sitesSize (front ++ skipped) + 3 - (sitesSize skipped + 3) = sitesSize front := by
      rw [sitesSize_append]
      omega
    refine ⟨sitesSize skipped + 3, hhas.wordAt? (h.fits _ _ hmem), ?_, ?_, ?_⟩
    · rw [sitesSize_append]
      omega
    · exact hoffset.symm ▸ h.boundary htarget
    · rw [hoffset, sitesSize_append]
      exact Nat.le_add_right ..

/-- No step fails because of malformed code. -/
theorem proper_of_step {before behind : List Site} (hsplit : sites = before ++ behind)
    {m m' : Machine} {e : RuntimeError}
    (hstep : m.step c (sitesSize before) = .error (.failed e) m') :
    ¬ e.fault.Malformed := by
  cases behind with
  | nil =>
      rw [List.append_nil] at hsplit
      rw [← hsplit, h.step_ret] at hstep
      cases hstep
  | cons site behind =>
      rcases h.moved hsplit m with ⟨_, _, hone, -⟩ | ⟨outcome, m'', hone, -, hproper⟩
      · rw [hone] at hstep
        cases hstep
      · rw [hone] at hstep
        obtain ⟨rfl, -⟩ := EStateM.Result.error.inj hstep
        exact (hproper e rfl).1

/-- A step from a site leads to a site or to the end of the code. -/
theorem exists_reaches_of_step {ip ip' : Nat} {m m' : Machine}
    (hreaches : ∃ height, Reaches sites ip height) (hstep : m.step c ip = .ok ip' m') :
    ∃ height, Reaches sites ip' height := by
  obtain ⟨height, before, behind, hsplit, rfl, -⟩ := hreaches
  cases behind with
  | nil =>
      rw [List.append_nil] at hsplit
      rw [← hsplit, h.step_ret] at hstep
      cases hstep
  | cons site behind =>
      rcases h.moved hsplit m with ⟨ip, m'', hone, height, hreaches, -⟩ | ⟨_, _, hone, -⟩
      · rw [hone] at hstep
        obtain ⟨rfl, rfl⟩ := EStateM.Result.ok.inj hstep
        exact ⟨height, hreaches⟩
      · rw [hone] at hstep
        cases hstep

/-- Along a path from the start, the run stands at a site or at the end of the code. -/
theorem reaches_of_path {n ip : Nat} {m m' : Machine} (hpath : c.Path n 0 m ip m') :
    ∃ height, Reaches sites ip height :=
  hpath.preserves (P := fun ip _ => ∃ height, Reaches sites ip height)
    (fun _ _ _ _ _ hreaches hstep => h.exists_reaches_of_step hreaches hstep)
    ⟨_, [], sites, rfl, rfl, rfl⟩

/-- A run never leaves the sites, whatever machine it starts from. -/
theorem exists_split_of_run (tracing : Bool) (m : Machine) (n : Nat) : ∃ before behind,
    sites = before ++ behind ∧ ((Run.start c tracing m).advance n).ip = sitesSize before := by
  obtain ⟨-, hpath⟩ | ⟨_, _, _, -, -, hpath, -⟩ := Run.path_of_go (c := c) tracing n 0 m #[]
  all_goals
    obtain ⟨_, before, behind, hsplit, hip, -⟩ := h.reaches_of_path hpath
    exact ⟨before, behind, hsplit, hip⟩

end Follows

end Chunk

/-- A compiled chunk follows the sites of its tree. -/
theorem Chunk.Encodes.exists_follows {c : Chunk} {tree : Stmt} {tokens : List Token}
    (h : c.Encodes tree) (htokens : ProgramTokens tree tokens)
    (hadmissible : tree.admissible = true) :
    ∃ sites, c.Follows sites ∧ itemsOf sites = tree.code tree.pool true [] ∧
      Starts 0 sites (tree.starts tree.pool true []) := by
  obtain ⟨-, -, -, hroom, hfits⟩ := Stmt.admissible_iff.mp hadmissible
  obtain ⟨sites, hitems, hheight, hflow, hstarts⟩ := tree.balanced
    htokens.regular hroom fun v hv => mem_grow hv
  rw [tree.scopeAfter_top] at hheight hflow hstarts
  refine ⟨sites, ⟨?_, ?_, hheight, ?_⟩, hitems, hstarts⟩
  · rw [hitems]
    exact h.code
  · rwa [h.constants]
  · rwa [hitems]

/-- Every compiled chunk is well formed, and no run of it ever stands between instructions
or fails because of malformed code, whatever the machine it starts from. -/
theorem compiled_wellFormed {source : String} {c : Chunk} (hc : compile source = .ok c) :
    c.WellFormed ∧ ∀ (tracing : Bool) (m : Machine) (n : Nat),
      let r := (Run.start c tracing m).advance n
      c.Boundary r.ip ∧ r.ip < c.size ∧
        ∀ e, r.outcome = some (.failed e) → ¬ e.fault.Malformed := by
  obtain ⟨tree, htree, hadmissible, hencodes⟩ := exists_tree_of_compile hc
  obtain ⟨sites, hfollows, -⟩ := hencodes.exists_follows htree hadmissible
  refine ⟨hfollows.wellFormed, fun tracing m n => ?_⟩
  intro r
  rcases Run.path_of_go (c := c) tracing n 0 m #[] with
    ⟨hnone, hpath⟩ | ⟨outcome, k, m', hsome, -, hpath, hends⟩
  all_goals obtain ⟨height, before, behind, hsplit, hip, -⟩ := hfollows.reaches_of_path hpath
  · refine ⟨hip ▸ hfollows.boundary hsplit, hip ▸ hfollows.lt_size hsplit, fun e he => ?_⟩
    exact absurd (hnone.symm.trans he) (by simp)
  · refine ⟨hip ▸ hfollows.boundary hsplit, hip ▸ hfollows.lt_size hsplit, fun e he => ?_⟩
    obtain rfl := Option.some.inj (hsome.symm.trans he)
    cases hends with
    | stopped _ hstep =>
        rw [hip] at hstep
        exact hfollows.proper_of_step hsplit hstep

/-- A loop over a local that changes a global. -/
theorem compiled_wellFormed_loop : ∃ c, compile "{ var a; while (a) g = a; }" = .ok c ∧
    c.WellFormed ∧ ∀ (tracing : Bool) (m : Machine) (n : Nat),
      let r := (Run.start c tracing m).advance n
      c.Boundary r.ip ∧ r.ip < c.size ∧
        ∀ e, r.outcome = some (.failed e) → ¬ e.fault.Malformed := by
  obtain ⟨c, hc⟩ := exists_of_isOk
    (show (compile "{ var a; while (a) g = a; }").isOk = true by decide +kernel)
  exact ⟨c, hc, compiled_wellFormed hc⟩

end StackScript
