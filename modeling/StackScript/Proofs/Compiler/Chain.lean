import StackScript.Proofs.Compiler.Statement

/-!
Chains of declarations and statements. The loop that reads them is bounded by the tokens
ahead, of which every repetition takes in at least one, or by the length of the chain.
-/

namespace StackScript

/-- The number of declarations and statements in a chain. -/
def Tree.Stmt.length : Stmt → Nat
  | .seq _ rest => rest.length + 1
  | _ => 0

namespace Builder

open Tree TokenKind

/-- The loop over declarations, which goes on up to a token that stops it. -/
structure Repeats (stop : TokenKind → Bool) (more : Builder → Bool) : Prop where
  more : ∀ b : Builder, more b = !stop b.current.kind
  goes : ∀ k : TokenKind, k ≠ .rightBrace → k ≠ .endOfFile → stop k = false
  other : stop .elseWord = false

/-- A block goes on up to its brace. -/
theorem repeats_block : Repeats (fun k => decide (k = .rightBrace) || decide (k = .endOfFile))
    (fun b => !b.sees .rightBrace && !b.sees .endOfFile) :=
  ⟨fun b => by simp [sees], fun k hbrace hlast => by simp [hbrace, hlast], by decide⟩

/-- A program goes on up to the end of the file. -/
theorem repeats_program :
    Repeats (fun k => decide (k = .endOfFile)) (fun b => !b.sees .endOfFile) :=
  ⟨fun _ => rfl, fun _ _ hk => decide_eq_false hk, rfl⟩

/-- The loop gets to the end of a chain and no further: the token there stops it, or there
are no more repetitions. -/
def Halts (stop : TokenKind → Bool) (u : Token) (s : Stmt) (ts bound : List Token) : Prop :=
  stop u.kind = true ∧ ts.length ≤ bound.length ∨ u.kind ≠ .elseWord ∧ bound.length = s.length

theorem Halts.other {stop : TokenKind → Bool} {more : Builder → Bool} {u : Token} {s : Stmt}
    {ts bound : List Token} (h : Halts stop u s ts bound) (hrepeats : Repeats stop more) :
    u.kind ≠ .elseWord := by
  obtain ⟨hstop, -⟩ | ⟨hother, -⟩ := h
  · intro hkind
    rw [hkind, hrepeats.other] at hstop
    cases hstop
  · exact hother

/-- One repetition of the loop takes in the first part of a chain. -/
theorem Halts.exists_rest {stop : TokenKind → Bool} {u t : Token} {first rest : Stmt}
    {ts us bound : List Token} (h : Halts stop u (.seq first rest) (t :: ts ++ us) bound) :
    ∃ x bound', bound = x :: bound' ∧ Halts stop u rest us bound' := by
  cases bound with
  | nil => exact absurd h (by simp [Halts, Stmt.length])
  | cons x bound' =>
      refine ⟨x, bound', rfl, h.imp (And.imp_right fun hlength => ?_) (And.imp_right Nat.succ.inj)⟩
      simp only [List.cons_append, List.length_cons, List.length_append] at hlength
      omega

/-- The tokens of the chain are compiled to its code if it fits, wherever a chain may
stand. -/
def ChainSettled (s : Stmt) (ts : List Token) : Prop :=
  ∀ (q : Place) (depth level : Nat) (b : Builder) (u : Token) (rest bound : List Token)
    (stop : TokenKind → Bool) (more : Builder → Bool), Located q depth level b →
    grow b.pool (s.constants q.top q.scope) <+: q.final → b.upcoming = ts ++ u :: rest →
    Repeats stop more → Halts stop u s ts bound →
    b.Settles (q.Fits level b.pool s) ts (s.constants q.top q.scope)
      (s.code q.final q.top q.scope) (q.after s).locals
      (repeatWhile more (declaration (statement depth) (expression depth)) bound b)

theorem chainSettled_skip : ChainSettled .skip [] := by
  intro q depth level b u rest bound stop more hb _ hahead hrepeats hhalts
  have hcurrent : b.current = u := List.head_eq_of_cons_eq hahead
  have hends : repeatWhile more (declaration (statement depth) (expression depth)) bound b = b := by
    obtain ⟨hstop, -⟩ | ⟨-, hbound⟩ := hhalts
    · exact repeatWhile_of_not (by simp [hrepeats.more, hcurrent, hstop]) bound
    · rw [List.eq_nil_of_length_eq_zero hbound]
      rfl
  rw [hends, q.after_of_declared rfl]
  have hnothing := hb.ready.compiles_nothing
  rw [hb.locals] at hnothing
  exact Or.inl ⟨Stmt.fits_skip hb.within hb.ready.room hb.few, hnothing⟩

/-- Nothing has to be recovered from where nothing went wrong. -/
theorem Settles.declaration {b b' : Builder} {fits : Prop} {ts : List Token}
    {constants : List Value} {items : List Item} {locals : List Local}
    (h : b.Settles fits ts constants items locals b') :
    b.Settles fits ts constants items locals (if b'.panicking then b'.synchronize else b') := by
  rcases h with ⟨hfits, hcompiles⟩ | ⟨hmisfit, hsoiled⟩
  · rw [hcompiles.took.clean.calm]
    exact Or.inl ⟨hfits, hcompiles⟩
  · refine Or.inr ⟨hmisfit, ?_⟩
    split
    · exact closed_soiled.synchronize b' hsoiled
    · exact hsoiled

section Declaration

variable {q : Place} {depth level : Nat} {b : Builder} {s : Stmt} {ts rest : List Token} {u : Token}

theorem settles_declaration_var (hb : Located q depth level b) (h : VarTokens s ts)
    (hfinal : grow b.pool (s.constants q.top q.scope) <+: q.final)
    (hahead : b.upcoming = ts ++ u :: rest) :
    b.Settles (q.Fits level b.pool s) ts (s.constants q.top q.scope)
      (s.code q.final q.top q.scope) (q.after s).locals
      (declaration (statement depth) (expression depth) b) := by
  obtain ⟨t, more, rfl, ht⟩ := h.exists_start
  have hcurrent : b.current = t := List.head_eq_of_cons_eq hahead
  have hvar : b.sees .varWord = true := by simp [sees, hcurrent, ht]
  unfold declaration
  dsimp only
  rw [if_pos hvar]
  exact (hb.settles_varDeclaration h hfinal hahead (List.cons_ne_nil u rest)).declaration

theorem settles_declaration_statement (hb : Located q depth level b) (htokens : StmtTokens s ts)
    (h : StmtSettled s ts) (hfinal : grow b.pool (s.constants q.top q.scope) <+: q.final)
    (hahead : b.upcoming = ts ++ u :: rest) (hother : u.kind ≠ .elseWord) :
    b.Settles (q.Fits level b.pool s) ts (s.constants q.top q.scope)
      (s.code q.final q.top q.scope) (q.after s).locals
      (declaration (statement depth) (expression depth) b) := by
  have hdeclared := htokens.declared q.here
  obtain ⟨t, more, rfl, ht⟩ := htokens.exists_start
  have hcurrent : b.current = t := List.head_eq_of_cons_eq hahead
  have hvar : b.sees .varWord = false := by simp [sees, hcurrent, ht.declaration]
  rw [q.after_of_declared hdeclared]
  unfold declaration
  dsimp only
  rw [if_neg (Bool.eq_false_iff.mp hvar)]
  exact (h q depth level b u rest hb hfinal hahead fun _ => hother).declaration

end Declaration

/-- A first declaration or statement and the chain behind it. -/
theorem chainSettled_seq {first rest : Stmt} {ts us : List Token}
    (hfirst : VarTokens first ts ∨ StmtTokens first ts ∧ StmtSettled first ts)
    (hrest : ChainSettled rest us)
    (hnext : us = [] ∨ ∃ t more, us = t :: more ∧ t.kind ≠ .elseWord) :
    ChainSettled (.seq first rest) (ts ++ us) := by
  intro q depth level b u behind bound stop more hb hfinal hahead hrepeats hhalts
  simp only [Stmt.constants, grow_append] at hfinal
  obtain ⟨v, rest', hv, hother⟩ :
      ∃ v rest', us ++ u :: behind = v :: rest' ∧ v.kind ≠ .elseWord := by
    rcases hnext with rfl | ⟨t, rest', rfl, ht⟩
    · exact ⟨u, behind, rfl, hhalts.other hrepeats⟩
    · exact ⟨t, rest' ++ u :: behind, rfl, ht⟩
  have hahead' : b.upcoming = ts ++ v :: rest' := by rw [hahead, ← hv, List.append_assoc]
  obtain ⟨t, ts', hts, hbrace, hlast⟩ : ∃ t ts', ts = t :: ts' ∧ t.kind ≠ .rightBrace ∧
      t.kind ≠ .endOfFile := by
    rcases hfirst with hvar | ⟨htokens, -⟩
    · obtain ⟨t, ts', hts, ht⟩ := hvar.exists_start
      exact ⟨t, ts', hts, by simp [ht], by simp [ht]⟩
    · obtain ⟨t, ts', hts, ht⟩ := htokens.exists_start
      exact ⟨t, ts', hts, ht.brace, ht.last⟩
  have hcurrent : b.current = t := by
    rw [hts] at hahead'
    exact List.head_eq_of_cons_eq hahead'
  have hgoes : more b = true := by
    simp [hrepeats.more, hcurrent, hrepeats.goes t.kind hbrace hlast]
  have hstep : b.Settles (q.Fits level b.pool first) ts (first.constants q.top q.scope)
      (first.code q.final q.top q.scope) (q.after first).locals
      (declaration (statement depth) (expression depth) b) := by
    rcases hfirst with hvar | ⟨htokens, hsettled⟩
    · exact settles_declaration_var hb hvar ((prefix_grow _ _).trans hfinal) hahead'
    · exact settles_declaration_statement hb htokens hsettled ((prefix_grow _ _).trans hfinal)
        hahead' hother
  obtain ⟨_, bound, rfl, hrests⟩ := (hts ▸ hhalts).exists_rest
  rw [repeatWhile, if_pos hgoes]
  have hfits := q.fits_after level (grow b.pool (first.constants q.top q.scope)) first rest
  rcases hstep with ⟨hfitsFirst, hcompiles⟩ | ⟨hmisfit, hsoiled⟩
  · have hfew : (q.after first).scope.length ≤ localsMax := by
      rw [q.scope_after]
      exact (first.length_scopeAfter_le q.top q.scope).trans hfitsFirst.2.locals
    have hlocated := hb.after hcompiles hfew
    have hsettled := hrest (q.after first) depth level _ u behind bound stop more hlocated
      (by rw [q.top_after, q.scope_after, q.final_after, hcompiles.pool]; exact hfinal)
      (hcompiles.upcoming (by rw [hahead, List.append_assoc])) hrepeats hrests
    rw [hcompiles.pool, q.top_after, q.scope_after, q.final_after, ← q.after_seq] at hsettled
    refine (hcompiles.settles hsettled).iff ?_
    exact Stmt.fits_seq.trans ((and_iff_right hfitsFirst).trans hfits.symm)
  · refine Or.inr ⟨fun h => hmisfit (Stmt.fits_seq.mp h).1, ?_⟩
    refine closed_soiled.repeatWhile (fun b => ?_) _ _ hsoiled
    exact closed_soiled.declaration (closed_soiled.statement depth) (closed_soiled.expression depth)
      b

/-- A block is a chain in a scope of its own. -/
theorem stmtSettled_block {l r : Token} {body : Stmt} {ts : List Token} (hl : l.kind = .leftBrace)
    (hbody : ChainSettled body ts) (hr : r.kind = .rightBrace) :
    StmtSettled (.block body) (l :: ts ++ [r]) := by
  refine StmtSettled.of_within (Nat.succ_pos _) fun q depth level b u rest hb hfinal hahead _ => ?_
  have hahead' : b.upcoming = l :: (ts ++ r :: u :: rest) := by simpa using hahead
  obtain ⟨hcurrent, hadvance, hmoved, hpool, hnext⟩ := hb.word hahead' (by simp)
  have hinside := hmoved.opened
  have hwithin : statementWithin (statement depth) (expression depth) b =
      (b.advance.beginScope.block (statement depth) (expression depth)).endScope := by
    simp only [statementWithin, hcurrent, hl]
  have hunread : b.advance.beginScope.upcoming = ts ++ r :: u :: rest := hnext
  have hlength : ts.length ≤ b.advance.beginScope.unread.length := by
    have hall := congrArg List.length hunread
    simp only [Builder.upcoming, List.length_cons, List.length_append] at hall
    omega
  have hchain := hbody q.opened depth (level + 1) b.advance.beginScope r (u :: rest)
    b.advance.beginScope.unread _ _ hinside
    (by
      rw [q.top_opened, q.scope_opened]
      exact hpool.symm ▸ hfinal)
    hunread repeats_block (Or.inl ⟨by simp [hr], hlength⟩)
  rw [q.top_opened, q.scope_opened] at hchain
  have hclosed := Settles.closeScope hmoved
    (hchain.expect hinside.ready hunread (List.cons_ne_nil u rest) hr .braceAfterBlock)
  rw [hwithin]
  refine (hadvance.settles hclosed).iff ?_
  rw [← hpool, Place.Fits, Place.Fits, q.top_opened, q.scope_opened]
  exact Stmt.fits_block

end Builder

end StackScript
