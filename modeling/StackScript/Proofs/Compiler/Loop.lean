import StackScript.Proofs.Compiler.Chain

/-!
The statement `for`. Its clauses and its body stand in a scope of its own. From the start
of the condition on, all distances are counted from there: the increment is written before
the body, jumps back to the condition, and is jumped over on the way in.
-/

namespace StackScript.Builder

open Tree TokenKind

/-- The condition of a loop with the jump that leaves it, before that jump has a target. -/
def testCode : Option (List Item) → List Item
  | none => []
  | some code => code ++ [.jump .jumpIfFalse distanceMax, .plain .pop]

theorem codeSize_testCode (test : Option (List Item)) :
    codeSize (testCode test) = conditionSize test := by
  cases test <;> simp [testCode, conditionSize, Item.size]

/-- Where the body jumps back to, counted from the condition. -/
def backOffset (before : Nat) (increment : Option (List Item)) : Nat :=
  match increment with
  | none => 0
  | some _ => before + 3

theorem three_le_backDistance (before : Nat) (body : List Item) (increment : Option (List Item)) :
    3 ≤ backDistance before body increment := by
  cases increment <;> simp [backDistance]

theorem backOffset_add_backDistance (before : Nat) (body : List Item)
    (increment : Option (List Item)) :
    backOffset before increment + backDistance before body increment =
      before + codeSize (incrementCode before increment) + codeSize body + 3 := by
  cases increment with
  | none => simp [backOffset, backDistance, incrementCode]
  | some code =>
      simp only [backOffset, backDistance, incrementCode, List.cons_append, codeSize_cons,
        codeSize_append, codeSize_nil, Item.size]
      omega

namespace Located

variable {q : Place} {depth level : Nat} {b : Builder}

theorem settles_forStart (hb : Located q depth level b) (htop : q.top = false) (hhere : q.here = [])
    {first : Stmt} {ts rest : List Token} (h : ForStartTokens first ts)
    (hfinal : grow b.pool (first.constants false q.scope) <+: q.final)
    (hahead : b.upcoming = ts ++ rest) (hmore : rest ≠ []) :
    b.Settles (first.ClauseFits level b.pool q.final q.scope) ts (first.constants false q.scope)
      (first.code q.final false q.scope) (q.after first).locals
      (b.forStart (expression depth)) := by
  unfold forStart
  cases h with
  | @absent semi hsemi =>
      obtain ⟨hcurrent, hadvance, -, -, -⟩ := hb.word hahead hmore
      rw [if_pos (by simp [sees, hcurrent, hsemi]), q.after_of_declared rfl]
      exact Or.inl ⟨Stmt.clauseFits_skip hb.within hb.ready.room hb.few, hadvance⟩
  | var hvar =>
      obtain ⟨t, more, hts, ht⟩ := hvar.exists_start
      have hcurrent : b.current = t := by
        rw [hts] at hahead
        exact List.head_eq_of_cons_eq hahead
      have hsettled := hb.settles_varDeclaration hvar (htop.symm ▸ hfinal) hahead hmore
      rw [if_neg (by simp [sees, hcurrent, ht]), if_pos (by simp [sees, hcurrent, ht])]
      rw [htop] at hsettled
      refine hsettled.iff ?_
      rw [Place.Fits, htop, hhere]
      cases hvar <;> exact Stmt.clauseFits_var
  | @expression e ts semi he hsemi =>
      have hahead' : b.upcoming = ts ++ semi :: rest := by simpa using hahead
      have hsimple := hb.settles_simple he hfinal hahead' hmore hsemi .semicolonAfterExpression .pop
      obtain ⟨t, more, l, rfl, hl⟩ := he.exists_lead
      have hcurrent : b.current = t := List.head_eq_of_cons_eq hahead
      have hsemicolon : t.kind ≠ .semicolon := fun hkind => by rw [hkind] at hl; cases hl
      have hvar : t.kind ≠ .varWord := fun hkind => by rw [hkind] at hl; cases hl
      rw [if_neg (by simp [sees, hcurrent, hsemicolon]), if_neg (by simp [sees, hcurrent, hvar]),
        q.after_of_declared rfl]
      exact hsimple.iff (Stmt.clauseFits_expression hb.few)

theorem settles_forCondition (hb : Located q depth level b) {condition : Option Expr}
    {ts rest : List Token} {semi : Token} (h : OptionalExpr condition ts)
    (hsemi : semi.kind = .semicolon)
    (hfinal : grow b.pool (optionalConstants q.scope condition) <+: q.final)
    (hahead : b.upcoming = ts ++ semi :: rest) (hmore : rest ≠ []) :
    b.Settles (OptionalFits level b.pool q.final [] q.scope condition) (ts ++ [semi])
        (optionalConstants q.scope condition)
        (testCode (condition.map (Expr.code q.final q.scope))) q.locals
        (b.forCondition (expression depth)).1 ∧
      (OptionalFits level b.pool q.final [] q.scope condition →
        (b.forCondition (expression depth)).2 = (condition.map (Expr.code q.final q.scope)).map
          fun code => b.chunk.size + codeSize code + 1) := by
  unfold forCondition
  cases h with
  | none =>
      obtain ⟨hcurrent, hadvance, -, -, -⟩ := hb.word hahead hmore
      rw [if_pos (by simp [sees, hcurrent, hsemi])]
      exact ⟨Or.inl ⟨trivial, hadvance⟩, fun _ => rfl⟩
  | @some e ts he =>
      have hexpr := hb.settles_expression he hfinal hahead (Or.inl hsemi)
      obtain ⟨hjump, hoffset⟩ := (hexpr.expect hb.ready hahead hmore hsemi
        .semicolonAfterLoopCondition).emitJump hb.ready .jumpIfFalse
      have hpop := hjump.emit hb.ready .pop
      obtain ⟨t, more, l, rfl, hl⟩ := he.exists_lead
      have hcurrent : b.current = t := List.head_eq_of_cons_eq hahead
      have hsemicolon : t.kind ≠ .semicolon := fun hkind => by rw [hkind] at hl; cases hl
      rw [if_neg (by simp [sees, hcurrent, hsemicolon])]
      refine ⟨hpop.congr Iff.rfl rfl rfl (by simp [testCode]), fun hfits => ?_⟩
      exact congrArg some (hoffset hfits)

theorem settles_forIncrement (hb : Located q depth level b) {b' : Builder} {fits : Prop}
    {ts us rest : List Token} {r : Token} {constants : List Value} {items : List Item}
    {increment : Option Expr} (hbefore : b.Settles fits ts constants items q.locals b')
    (h : OptionalExpr increment us) (hr : r.kind = .rightParen)
    (hfinal : grow (grow b.pool constants) (optionalConstants q.scope increment) <+: q.final)
    (hahead : b.upcoming = ts ++ (us ++ r :: rest)) (hmore : rest ≠ []) :
    b.Settles (fits ∧ OptionalFits level (grow b.pool constants) q.final [] q.scope increment ∧
          (incrementCode (codeSize items) (increment.map (Expr.code q.final q.scope))).all
            Item.fits = true)
        (ts ++ (us ++ [r])) (constants ++ optionalConstants q.scope increment)
        (items ++ incrementCode (codeSize items) (increment.map (Expr.code q.final q.scope)))
        q.locals (b'.forIncrement (expression depth) b.chunk.size).1 ∧
      (fits → (b'.forIncrement (expression depth) b.chunk.size).2 = b.chunk.size +
        backOffset (codeSize items) (increment.map (Expr.code q.final q.scope))) := by
  rcases hbefore with ⟨hfits, hcompiles⟩ | ⟨hmisfit, hsoiled⟩
  rotate_left
  · exact ⟨Or.inr ⟨fun hall => hmisfit hall.1,
      closed_soiled.forIncrement (closed_soiled.expression depth) _ b' hsoiled⟩,
      fun hfits => absurd hfits hmisfit⟩
  have hlocated := hb.same hcompiles
  have hnext := hcompiles.upcoming hahead
  have hpool := hcompiles.pool
  unfold forIncrement
  cases h with
  | none =>
      obtain ⟨hcurrent, hadvance, -, -, -⟩ := hlocated.word hnext hmore
      rw [if_pos (by simp [sees, hcurrent, hr])]
      exact ⟨Or.inl ⟨⟨hfits, trivial, rfl⟩, hcompiles.trans hadvance⟩, fun _ => rfl⟩
  | @some e us he =>
      obtain ⟨t, more, l, hts, hl⟩ := he.exists_lead
      have hcurrent : b'.current = t := by
        rw [hts] at hnext
        exact List.head_eq_of_cons_eq hnext
      have hparen : t.kind ≠ .rightParen := fun hkind => by rw [hkind] at hl; cases hl
      rw [if_neg (by simp [sees, hcurrent, hparen])]
      obtain ⟨hjump, hoffset⟩ := (Settles.of_compiles hcompiles).emitJump hb.ready .jump
      have hinside := hb.same (hjump.compiles trivial)
      have hvalue := hjump.trans (closed_soiled.expression depth _) fun hskipped => by
        have hexpr := hinside.settles_expression he (hskipped.pool.symm ▸ hfinal)
          (hskipped.upcoming hahead) (Or.inr hr)
        rwa [hskipped.pool] at hexpr
      have hclosed := (hvalue.emit hb.ready .pop).expect hb.ready
        (by simpa using hahead) hmore hr .parenAfterForClauses
      have hstart : (b'.emitJump .jump).1.chunk.size = b.chunk.size + codeSize items + 3 := by
        have hsize := (hjump.compiles trivial).wrote.size
        simp only [codeSize_append, codeSize_cons, codeSize_nil, Item.size] at hsize
        omega
      generalize hC : e.code q.final q.scope = C at *
      have hloop := hclosed.emitLoop b.chunk.size (codeSize items + 3 + codeSize C + 4)
        (fun _ => by
          simp only [codeSize_append, codeSize_cons, codeSize_nil, Item.size]
          omega) (by omega)
      have hshape : items ++ [.jump .jump distanceMax] ++ C ++ [.plain .pop] ++
          [.jump .loop (codeSize items + 3 + codeSize C + 4)] = items ++ .jump .jump distanceMax ::
            (C ++ [.plain .pop, .jump .loop (codeSize items + 3 + codeSize C + 4)]) := by simp
      rw [hshape] at hloop
      have hpatch := Settles.patchJump _ _ hloop fun _ => hoffset trivial
      refine ⟨hpatch.congr ?_ (by simp) rfl ?_, fun _ => ?_⟩
      · simp only [Option.map_some, hC, incrementCode, List.all_append, List.all_cons, List.all_nil,
          Item.fits, codeSize_append, codeSize_cons, codeSize_nil, Item.size,
          Bool.and_eq_true, decide_eq_true_eq]
        constructor
        · rintro ⟨-, hexpr, ⟨hskip, -⟩, -, hback, -⟩
          exact ⟨⟨⟨trivial, hexpr⟩, hback⟩, by omega⟩
        · rintro ⟨⟨⟨-, hexpr⟩, hback⟩, hskip⟩
          have hcode : C.all Item.fits = true := hC ▸ hexpr.2.2.1
          exact ⟨hfits, hexpr, ⟨by omega, hcode⟩, trivial, hback, trivial⟩
      · simp [incrementCode, hC, Item.size]
      · simp [backOffset, hstart, Nat.add_assoc]

/-- The way out of a loop. -/
theorem settles_forExit {b' : Builder} (hb : b.Ready) {fits : Prop} {ts : List Token}
    {constants : List Value} {test : Option (List Item)} {rest : List Item} {locals : List Local}
    {exitJump : Option Nat} (h : b.Settles fits ts constants (testCode test ++ rest) locals b')
    (hexit : fits → exitJump = test.map fun code => b.chunk.size + codeSize code + 1) :
    b.Settles (fits ∧ ExitFits (codeSize rest) test) ts constants (loopCode test rest) locals
      (b'.forExit exitJump) := by
  by_cases hfits : fits
  · rw [hexit hfits]
    cases test with
    | none =>
        exact h.congr (and_iff_left fun hnone => nomatch hnone) rfl rfl
          (by simp [testCode, loopCode])
    | some code =>
        have hshape : testCode (some code) ++ rest =
            code ++ .jump .jumpIfFalse distanceMax :: (.plain .pop :: rest) := by simp [testCode]
        rw [hshape] at h
        have hpatch := (Settles.patchJump _ _ h fun _ => rfl).emit hb .pop
        refine hpatch.congr ?_ rfl rfl ?_
        · simp [ExitFits, Item.size, distanceMax]
        · simp [loopCode, Item.size]
  · have hsoiled := (h.resolve_left fun hgood => hfits hgood.1).2
    exact Or.inr ⟨fun hboth => hfits hboth.1, (Stationary.forExit exitJump b').keeps hsoiled⟩

/-- A loop from its condition on. -/
theorem settles_loop (hb : Located q depth level b) (htop : q.top = false)
    {condition increment : Option Expr} {body : Stmt} {us vs ws rest : List Token}
    {semi r u : Token} (hc : OptionalExpr condition us) (hsemi : semi.kind = .semicolon)
    (hi : OptionalExpr increment vs) (hr : r.kind = .rightParen) (hbody : StmtSettled body ws)
    (hfinal : grow (grow (grow b.pool (optionalConstants q.scope condition))
      (optionalConstants q.scope increment)) (body.constants false q.scope) <+: q.final)
    (hahead : b.upcoming = us ++ semi :: (vs ++ r :: (ws ++ u :: rest)))
    (helse : body.takesElse = true → u.kind ≠ .elseWord) :
    let pool₂ := grow b.pool (optionalConstants q.scope condition)
    let pool₃ := grow pool₂ (optionalConstants q.scope increment)
    let test := condition.map (Expr.code q.final q.scope)
    let advance := increment.map (Expr.code q.final q.scope)
    let B := body.code q.final false q.scope
    let b₁ := b.forCondition (expression depth)
    let b₂ := b₁.1.forIncrement (expression depth) b.chunk.size
    b.Settles
      (OptionalFits level b.pool q.final [] q.scope condition ∧
        (OptionalFits level pool₂ q.final [] q.scope increment ∧
          (incrementCode (conditionSize test) advance).all Item.fits = true) ∧
        body.Fits level pool₃ q.final false q.here q.scope ∧
        backDistance (conditionSize test) B advance ≤ distanceMax ∧
        ExitFits (codeSize (incrementCode (conditionSize test) advance) + (codeSize B + 3)) test)
      (us ++ semi :: (vs ++ r :: ws))
      (optionalConstants q.scope condition ++ (optionalConstants q.scope increment ++
        body.constants false q.scope))
      (loopCode test (stepCode (conditionSize test) advance B)) q.locals
      (((statement depth b₂.1).emitLoop b₂.2).forExit b₁.2) := by
  intro pool₂ pool₃ test advance B b₁ b₂
  obtain ⟨htest, hexit⟩ := hb.settles_forCondition hc hsemi
    ((prefix_grow _ _).trans ((prefix_grow _ _).trans hfinal)) hahead (by simp)
  have hahead' : b.upcoming = us ++ [semi] ++ (vs ++ r :: (ws ++ u :: rest)) := by
    simpa using hahead
  obtain ⟨hadvance, hback⟩ := hb.settles_forIncrement htest hi hr
    ((prefix_grow _ _).trans hfinal) hahead' (by simp)
  rw [codeSize_testCode] at hadvance hback
  rw [← htop] at hfinal
  have hrun := hbody.settles hb hadvance (by simpa only [grow_append] using hfinal)
    (by simpa using hahead') helse
  rw [htop, grow_append] at hrun
  change b.Settles ((_ ∧ _) ∧ q.Fits level pool₃ body) _ _
    (testCode test ++ incrementCode (conditionSize test) advance ++ B) _ _ at hrun
  change _ → b₂.2 = b.chunk.size + backOffset (conditionSize test) advance at hback
  have hloop := hrun.emitLoop b₂.2 (backDistance (conditionSize test) B advance)
    (fun hfits => by
      rw [hback hfits.1.1]
      simp only [codeSize_append, codeSize_testCode]
      have hdistance := backOffset_add_backDistance (conditionSize test) B advance
      omega) (three_le_backDistance _ _ _)
  have hshape : testCode test ++ incrementCode (conditionSize test) advance ++ B ++
      [.jump .loop (backDistance (conditionSize test) B advance)] =
        testCode test ++ stepCode (conditionSize test) advance B := by
    rw [stepCode_eq]
    simp
  rw [hshape] at hloop
  have hdone := settles_forExit hb.ready hloop fun hfits => hexit hfits.1.1.1
  refine hdone.congr ?_ (by simp) (by simp) rfl
  have hplace : q.Fits level pool₃ body ↔ body.Fits level pool₃ q.final false q.here q.scope := by
    rw [Place.Fits, htop]
  rw [hplace, stepCode_eq]
  simp only [codeSize_append, codeSize_cons, codeSize_nil, Item.size, distanceMax, and_assoc,
    Nat.add_zero]
  exact Iff.rfl

end Located

/-- A `for` is a loop in a scope of its own, behind its first clause. -/
theorem stmtSettled_for {f l semi r : Token} {first body : Stmt} {condition increment : Option Expr}
    {ts us vs ws : List Token} (hf : f.kind = .forWord) (hl : l.kind = .leftParen)
    (hfirst : ForStartTokens first ts) (hc : OptionalExpr condition us)
    (hsemi : semi.kind = .semicolon) (hi : OptionalExpr increment vs) (hr : r.kind = .rightParen)
    (hbody : StmtSettled body ws) :
    StmtSettled (.forLoop first condition increment body)
      (f :: l :: ts ++ us ++ semi :: vs ++ r :: ws) := by
  refine StmtSettled.of_within (Nat.succ_pos _)
    fun q depth level b u rest hb hfinal hahead helse => ?_
  have hahead' : b.upcoming =
      f :: l :: (ts ++ (us ++ semi :: (vs ++ r :: (ws ++ u :: rest)))) := by simpa using hahead
  obtain ⟨hcurrent, hadvance, hmoved, hpool, hnext⟩ := hb.word hahead' (by simp)
  have hwithin : statementWithin (statement depth) (expression depth) b =
      b.advance.forStatement (statement depth) (expression depth) := by
    simp only [statementWithin, hcurrent, hf]
  have hopened := hmoved.opened
  have hopen := hopened.ready.compiles_expect (b := b.advance.beginScope) hnext (by simp) hl
    .parenAfterFor
  rw [hopened.locals] at hopen
  have hinside := hopened.same hopen
  have hpool' : (b.advance.beginScope.expect .leftParen .parenAfterFor).pool = b.pool :=
    hopen.pool.trans hpool
  have hupcoming := hopen.upcoming hnext
  simp only [Stmt.constants, grow_append] at hfinal
  have hstart := hinside.settles_forStart q.top_opened rfl hfirst
    (by
      rw [hpool', q.scope_opened]
      exact (prefix_grow _ _).trans ((prefix_grow _ _).trans ((prefix_grow _ _).trans hfinal)))
    hupcoming (by simp)
  rw [hpool', q.scope_opened] at hstart
  have hfits := @Stmt.fits_for level b.pool q.final q.top q.here q.scope first body condition
    increment
  rw [hwithin]
  unfold forStatement forClauses
  dsimp only
  rcases hstart with ⟨hfirstFits, hcompiles⟩ | ⟨hmisfit, hsoiled⟩
  · have hafter : (q.opened.after first).scope = first.scopeAfter false q.scope := by
      rw [q.opened.scope_after, q.top_opened, q.scope_opened]
    have hfew : (q.opened.after first).scope.length ≤ localsMax := by
      rw [hafter]
      exact (first.length_scopeAfter_le false q.scope).trans hfirstFits.2.locals
    have hat := hinside.after hcompiles hfew
    have hloop := hat.settles_loop (by simp [q.top_opened]) hc hsemi hi hr hbody
      (by
        rw [hcompiles.pool, hpool', hafter, q.opened.final_after]
        exact hfinal)
      (hcompiles.upcoming hupcoming) helse
    rw [hcompiles.pool, hpool', hafter, q.opened.final_after] at hloop
    have hclosed := Settles.closeScope hmoved (hopen.settles (hcompiles.settles hloop))
    refine (hadvance.settles hclosed).congr ?_ (by simp) (by simp [Stmt.constants]) ?_
    · have hhere : (q.opened.after first).here = first.declared [] := by
        rw [q.opened.after_local q.top_opened]
        rfl
      rw [hhere]
      exact hfits.trans (and_iff_right hfirstFits)
    · simp only [Stmt.code, List.nil_append, List.append_assoc]
      rfl
  · refine Or.inr ⟨fun hall => hmisfit (hfits.mp hall).1, ?_⟩
    have hcondition := closed_soiled.forCondition (closed_soiled.expression depth) _ hsoiled
    refine (Stationary.endScope _).keeps (closed_soiled.forExit _ _ ?_)
    refine closed_soiled.emitLoop _ _ (closed_soiled.statement depth _ ?_)
    exact closed_soiled.forIncrement (closed_soiled.expression depth) _ _ hcondition

end StackScript.Builder
