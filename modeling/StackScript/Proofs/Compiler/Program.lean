import StackScript.Builder.Statement
import StackScript.Proofs.Compiler.Loop
import StackScript.Proofs.Grammar.Program

/-!
Whole programs are compiled to the code of their trees, or reported when they are not
admissible. The statements follow from one induction over the tree.
-/

namespace StackScript

open Tree

theorem Tree.all_fits_iff {items : List Item} : items.all Item.fits = true ↔
    ∀ op distance, Item.jump op distance ∈ items → distance ≤ Builder.distanceMax := by
  rw [List.all_eq_true]
  constructor
  · intro h op distance hmem
    exact of_decide_eq_true (h _ hmem)
  · intro h item hmem
    cases item with
    | plain op => rfl
    | operand op byte => rfl
    | jump op distance => exact decide_eq_true (h op distance hmem)

theorem Tree.Stmt.admissible_iff {tree : Stmt} : tree.admissible = true ↔
    tree.wellScoped true [] = true ∧ tree.levels ≤ Builder.nestingMax ∧
      tree.mostLocals true 0 ≤ Builder.localsMax ∧ tree.pool.length ≤ Chunk.constantsMax ∧
      ∀ op distance, Item.jump op distance ∈ tree.code tree.pool true [] →
        distance ≤ Builder.distanceMax := by
  rw [← all_fits_iff]
  simp only [Stmt.admissible, Bool.and_eq_true, decide_eq_true_eq]
  constructor
  · rintro ⟨⟨⟨⟨hnames, hlocals⟩, hlevels⟩, hpool⟩, hcode⟩
    exact ⟨hnames, hlevels, hlocals, hpool, hcode⟩
  · rintro ⟨hnames, hlevels, hlocals, hpool, hcode⟩
    exact ⟨⟨⟨⟨hnames, hlocals⟩, hlevels⟩, hpool⟩, hcode⟩

theorem Tree.DeclTokens.starts {s : Stmt} {ts : List Token} (h : DeclTokens s ts) :
    ts = [] ∨ ∃ t more, ts = t :: more ∧ t.kind ≠ .elseWord := by
  cases h with
  | skip => exact Or.inl rfl
  | var hfirst hrest =>
      obtain ⟨t, more, rfl, ht⟩ := hfirst.exists_start
      exact Or.inr ⟨t, _, rfl, by simp [ht]⟩
  | statement hfirst hrest =>
      obtain ⟨t, more, rfl, ht⟩ := hfirst.exists_start
      exact Or.inr ⟨t, _, rfl, ht.other⟩

namespace Builder

/-- Every statement and every chain of the grammar is settled. -/
theorem settled_of_tokens (s : Stmt) : (∀ ts, StmtTokens s ts → StmtSettled s ts) ∧
    ∀ ts, DeclTokens s ts → ChainSettled s ts := by
  induction s with
  | skip =>
      refine ⟨fun ts h => (nomatch h), fun ts h => ?_⟩
      cases h
      exact chainSettled_skip
  | var x value => exact ⟨fun ts h => (nomatch h), fun ts h => nomatch h⟩
  | seq first rest ihf ihr =>
      refine ⟨fun ts h => (nomatch h), fun ts h => ?_⟩
      cases h with
      | var hfirst hrest =>
          exact chainSettled_seq (Or.inl hfirst) (ihr.2 _ hrest) hrest.starts
      | statement hfirst hrest =>
          have hsettled := ihf.1 _ hfirst
          exact chainSettled_seq (Or.inr ⟨hfirst, hsettled⟩) (ihr.2 _ hrest) hrest.starts
  | print e =>
      refine ⟨fun ts h => ?_, fun ts h => nomatch h⟩
      cases h with
      | print hp he hsemi => exact stmtSettled_print hp he hsemi
  | expression e =>
      refine ⟨fun ts h => ?_, fun ts h => nomatch h⟩
      cases h with
      | expression he hsemi => exact stmtSettled_expression he hsemi
  | block body ih =>
      refine ⟨fun ts h => ?_, fun ts h => nomatch h⟩
      cases h with
      | block hl hbody hr => exact stmtSettled_block hl (ih.2 _ hbody) hr
  | branch condition yes no ihy ihn =>
      refine ⟨fun ts h => ?_, fun ts h => nomatch h⟩
      cases h with
      | ifOnly hi hl hc hr hyes =>
          have hsettled := stmtSettled_if hi hl hc hr (ihy.1 _ hyes) elseSettled_skip
            (fun _ _ hnil => nomatch hnil) (fun _ => rfl)
          rwa [List.append_nil] at hsettled
      | @ifElse _ _ _ e _ _ _ _ _ vs hi hl hc hr hyes hopen he hno =>
          refine stmtSettled_if hi hl hc hr (ihy.1 _ hyes) (elseSettled_cons he (ihn.1 _ hno)) ?_
            (fun hnil => nomatch hnil)
          intro v more _ htakes
          rw [hopen] at htakes
          cases htakes
  | whileLoop condition body ih =>
      refine ⟨fun ts h => ?_, fun ts h => nomatch h⟩
      cases h with
      | whileLoop hw hl hc hr hbody => exact stmtSettled_while hw hl hc hr (ih.1 _ hbody)
  | forLoop first condition increment body _ ih =>
      refine ⟨fun ts h => ?_, fun ts h => nomatch h⟩
      cases h with
      | forLoop hf hl hfirst hc hsemi hi hr hbody =>
          exact stmtSettled_for hf hl hfirst hc hsemi hi hr (ih.1 _ hbody)

/-- Where a program starts. -/
def topPlace (final : List Value) : Place := ⟨final, [], [], 0⟩

theorem located_atStart (final : List Value) {tokens : List Token} (hne : tokens ≠ [])
    (hahead : ∀ t ∈ tokens, t.Sound ∧ t.WellSpelled) :
    Located (topPlace final) (nestingMax + 1) 0 (atStart tokens) ∧
      (atStart tokens).upcoming = tokens ∧ (atStart tokens).chunk = {} := by
  obtain ⟨t, rest, rfl⟩ := List.exists_cons_of_ne_nil hne
  have hsound : t.Sound := (hahead t (List.mem_cons_self ..)).1
  obtain ⟨hclean, hupcoming⟩ := clean_atStart hsound
  have hfirst : atStart (t :: rest) = ({ unread := t :: rest } : Builder).moved t rest :=
    advance_of_sound rfl hsound
  have hchunk : (atStart (t :: rest)).chunk = {} := by rw [hfirst]; rfl
  refine ⟨⟨⟨hclean, by rwa [hupcoming], ?_⟩, ?_, ?_, ?_, Nat.zero_le _, ?_, ?_, ?_, ?_⟩, hupcoming,
    hchunk⟩
  · rw [Builder.pool, hchunk]
    exact Nat.zero_le _
  · rw [hfirst]
    rfl
  · rw [hfirst]
    rfl
  · rw [hfirst]
    rfl
  · exact Nat.lt_succ_self _
  · exact Nat.zero_le _
  · intro entry hentry
    cases hentry
  · intro _
    rfl

/-- What a program needs at the place where it starts is what makes it admissible. -/
theorem fits_topPlace {tree : Stmt} :
    (topPlace tree.pool).Fits 0 [] tree ↔ tree.admissible = true := by
  have hpool : grow [] (tree.constants true []) = tree.pool := rfl
  simp only [Stmt.admissible, Bool.and_eq_true, decide_eq_true_eq]
  constructor
  · rintro ⟨hlevels, hnames, hlocals, hroom, hcode⟩
    exact ⟨⟨⟨⟨hnames, hlocals⟩, by omega⟩, hpool ▸ hroom⟩, hcode⟩
  · rintro ⟨⟨⟨⟨hnames, hlocals⟩, hlevels⟩, hroom⟩, hcode⟩
    exact ⟨by omega, hnames, hlocals, hroom, hcode⟩

end Builder

/-- The chunk is the code of the tree with its pool. -/
structure Chunk.Encodes (c : Chunk) (tree : Stmt) : Prop where
  code : c.code.toList = tree.program
  constants : c.constants.toList = tree.pool

namespace Builder

theorem settles_program {tree : Stmt} {tokens : List Token} (h : ProgramTokens tree tokens)
    (hspelled : ∀ t ∈ tokens, t.WellSpelled) :
    (tree.admissible = true ∧ ¬ (program tokens).Soiled ∧ (program tokens).chunk.Encodes tree ∧
      ({} : Chunk).Wrote (tree.code tree.pool true [] ++ [.plain .ret]) (program tokens).chunk) ∨
      (¬ tree.admissible = true ∧ (program tokens).Soiled) := by
  have hsound := h.sound
  obtain ⟨ts, last, hdecls, hlast, htokens⟩ := h
  obtain ⟨hlocated, hupcoming, hchunk⟩ := located_atStart tree.pool
    (show tokens ≠ [] by simp [htokens]) fun t ht => ⟨hsound t ht, hspelled t ht⟩
  have hpool : (atStart tokens).pool = [] := by rw [Builder.pool, hchunk]
  have hahead : (atStart tokens).upcoming = ts ++ last :: [] := hupcoming.trans htokens
  have hbound : ts.length ≤ (atStart tokens).unread.length := by
    have hlength := congrArg List.length hahead
    simp only [Builder.upcoming, List.length_cons, List.length_append, List.length_nil] at hlength
    omega
  have hchain := (settled_of_tokens tree).2 ts hdecls (topPlace tree.pool) (nestingMax + 1) 0
    (atStart tokens) last [] (atStart tokens).unread _ _ hlocated
    (by rw [hpool]; exact List.prefix_rfl) hahead repeats_program
    (Or.inl ⟨decide_eq_true hlast, hbound⟩)
  rw [hpool] at hchain
  rcases hchain with ⟨hfits, hcompiles⟩ | ⟨hmisfit, hsoiled⟩
  · have hcompiles : (atStart tokens).Compiles ts (tree.constants true [])
        (tree.code tree.pool true []) [] (atEnd tokens) := hcompiles
    have hrest := hcompiles.upcoming hahead
    have hunread : (atEnd tokens).unread = [] := (List.cons.inj hrest).2
    have hadvance : (atEnd tokens).advance =
        { atEnd tokens with previous := (atEnd tokens).current, unread := [] } := by
      unfold advance
      rw [hunread]
      rfl
    have hprogram : program tokens = Builder.emit
        { atEnd tokens with previous := (atEnd tokens).current, unread := [] } .ret := by
      rw [program_eq, hadvance]
    have hwrote := hcompiles.wrote.trans (wrote_emit
      { atEnd tokens with previous := (atEnd tokens).current, unread := [] } .ret)
    rw [hchunk, ← hprogram] at hwrote
    refine Or.inl ⟨fits_topPlace.mp hfits, ?_, ⟨?_, ?_⟩, hwrote⟩
    · rw [hprogram]
      exact hcompiles.took.clean.not_soiled
    · exact hwrote.code
    · have hgrown : (atEnd tokens).pool = grow [] (tree.constants true []) := by
        rw [hcompiles.pool, hpool]
      rw [hprogram]
      exact hgrown
  · refine Or.inr ⟨mt fits_topPlace.mpr hmisfit, ?_⟩
    exact closed_soiled.emit _ _ (closed_soiled.advance (atEnd tokens) hsoiled)

end Builder

theorem compile_eq_ok_iff {source : String} {c : Chunk} : compile source = .ok c ↔
    ¬ (Builder.program (Token.scan source)).Soiled ∧
      (Builder.program (Token.scan source)).chunk = c := by
  unfold compile Builder.Soiled
  dsimp only
  split
  · rename_i hempty
    simp [Array.isEmpty_iff.mp hempty]
  · rename_i hnonempty
    simp [mt Array.isEmpty_iff.mpr hnonempty]

theorem compile_eq_error_iff {source : String} {errors : Array Diagnostic} :
    compile source = .error errors ↔
      (Builder.program (Token.scan source)).Soiled ∧
        (Builder.program (Token.scan source)).errors = errors := by
  unfold compile Builder.Soiled
  dsimp only
  split
  · rename_i hempty
    refine iff_of_false nofun ?_
    rintro ⟨hnonempty, rfl⟩
    exact hnonempty (Array.isEmpty_iff.mp hempty)
  · rename_i hnonempty
    constructor
    · rintro ⟨⟩
      exact ⟨mt Array.isEmpty_iff.mpr hnonempty, rfl⟩
    · rintro ⟨-, rfl⟩
      rfl

theorem exists_of_isOk {source : String} (h : (compile source).isOk = true) :
    ∃ c, compile source = .ok c := by
  cases hc : compile source with
  | ok c => exact ⟨c, rfl⟩
  | error errors =>
      rw [hc] at h
      cases h

theorem exists_of_not_isOk {source : String} (h : (compile source).isOk = false) :
    ∃ errors, compile source = .error errors := by
  cases hc : compile source with
  | ok c =>
      rw [hc] at h
      cases h
  | error errors => exact ⟨errors, rfl⟩

/-- What is compiled without a diagnostic is an admissible program in its encoding. -/
theorem exists_tree_of_compile {source : String} {c : Chunk} (h : compile source = .ok c) :
    ∃ tree, ProgramTokens tree (Token.scan source) ∧ tree.admissible = true ∧ c.Encodes tree := by
  obtain ⟨hclean, rfl⟩ := compile_eq_ok_iff.mp h
  obtain ⟨-, -, -, -, -, hspelled⟩ := Token.scan_eq source
  obtain ⟨tree, htree⟩ := Builder.exists_programTokens hclean
  rcases Builder.settles_program htree hspelled with ⟨hadmissible, -, hencodes, -⟩ | ⟨-, hsoiled⟩
  · exact ⟨tree, htree, hadmissible, hencodes⟩
  · exact absurd hsoiled hclean

/-- A program of the grammar is compiled to its encoding exactly if it is admissible. -/
theorem compile_iff_admissible {source : String} {tree : Stmt}
    (h : ProgramTokens tree (Token.scan source)) :
    (∃ c, compile source = .ok c) ↔ tree.admissible = true := by
  obtain ⟨-, -, -, -, -, hspelled⟩ := Token.scan_eq source
  rcases Builder.settles_program h hspelled with ⟨hadmissible, hclean, -⟩ | ⟨hfails, hsoiled⟩
  · exact ⟨fun _ => hadmissible, fun _ => ⟨_, compile_eq_ok_iff.mpr ⟨hclean, rfl⟩⟩⟩
  · constructor
    · rintro ⟨c, hc⟩
      exact absurd hsoiled (compile_eq_ok_iff.mp hc).1
    · exact fun hadmissible => absurd hadmissible hfails

theorem encodes_of_compile {source : String} {tree : Stmt} {c : Chunk}
    (h : ProgramTokens tree (Token.scan source)) (hc : compile source = .ok c) :
    c.Encodes tree := by
  obtain ⟨-, -, -, -, -, hspelled⟩ := Token.scan_eq source
  obtain ⟨hclean, rfl⟩ := compile_eq_ok_iff.mp hc
  rcases Builder.settles_program h hspelled with ⟨-, -, hencodes, -⟩ | ⟨-, hsoiled⟩
  · exact hencodes
  · exact absurd hsoiled hclean

/-- A compiled chunk has been written instruction by instruction, each for one line. -/
theorem wrote_of_compile {source : String} {tree : Stmt} {c : Chunk}
    (h : ProgramTokens tree (Token.scan source)) (hc : compile source = .ok c) :
    ({} : Chunk).Wrote (tree.code tree.pool true [] ++ [.plain .ret]) c := by
  obtain ⟨-, -, -, -, -, hspelled⟩ := Token.scan_eq source
  obtain ⟨hclean, rfl⟩ := compile_eq_ok_iff.mp hc
  rcases Builder.settles_program h hspelled with ⟨-, -, -, hwrote⟩ | ⟨-, hsoiled⟩
  · exact hwrote
  · exact absurd hsoiled hclean

end StackScript
