import StackScript.Proofs.Compiler.Declaration

/-!
Statements of the grammar are compiled to the code of their trees, or reported when they
do not fit. The parts of a statement are settled one after the other; a jump is settled
when its target is reached, with everything in between already written.
-/

namespace StackScript.Builder

open Tree TokenKind

namespace Located

variable {q : Place} {depth level : Nat} {b : Builder}

/-- A whole expression at a place. -/
theorem settles_expression (hb : Located q depth level b) {e : Expr} {ts rest : List Token}
    {u : Token} (h : WholeExpr e ts) (hfinal : grow b.pool (e.constants q.scope) <+: q.final)
    (hahead : b.upcoming = ts ++ u :: rest)
    (hend : u.kind = .semicolon ∨ u.kind = .rightParen) :
    b.Settles (e.Fits level b.pool q.final [] q.scope) ts (e.constants q.scope)
      (e.code q.final q.scope) q.locals (expression depth b) := by
  rw [← hb.locals]
  refine hb.placed.settles_expression h hfinal hahead ?_ ?_
  · rcases hend with hkind | hkind
    · exact hkind ▸ below_semicolon _
    · exact hkind ▸ below_rightParen _
  · rcases hend with hkind | hkind <;> simp [hkind]

/-- The end of an `if`'s first branch. -/
theorem settles_otherwise {b' : Builder} (hb : b.Ready) {fits : Prop} {ts : List Token}
    {constants : List Value} {locals : List Local} {before behind : List Item} {thenJump : Nat}
    (h : b.Settles fits ts constants (before ++ .jump .jumpIfFalse distanceMax :: behind) locals b')
    (hthen : fits → thenJump = b.chunk.size + codeSize before + 1) :
    b.Settles (fits ∧ codeSize behind + 3 ≤ distanceMax) ts constants
        ((before ++ .jump .jumpIfFalse (codeSize behind + 3) :: behind) ++
          [.jump .jump distanceMax, .plain .pop]) locals (b'.otherwise thenJump).1 ∧
      (fits → (b'.otherwise thenJump).2 =
        b.chunk.size + codeSize (before ++ .jump .jumpIfFalse (codeSize behind + 3) :: behind) +
          1) := by
  obtain ⟨hjump, helse⟩ := h.emitJump hb .jump
  have hshape : before ++ .jump .jumpIfFalse distanceMax :: behind ++ [.jump .jump distanceMax] =
      before ++ .jump .jumpIfFalse distanceMax :: (behind ++ [.jump .jump distanceMax]) := by simp
  rw [hshape] at hjump
  have hpop := (Settles.patchJump _ _ hjump hthen).emit hb .pop
  refine ⟨hpop.congr ?_ rfl rfl ?_, fun hfits => (helse hfits).trans ?_⟩
  · simp [Item.size]
  · simp [Item.size]
  · simp [Item.size]

/-- An expression statement, or one that prints. -/
theorem settles_simple (hb : Located q depth level b) {e : Expr} {ts rest : List Token}
    {semi : Token} (h : WholeExpr e ts) (hfinal : grow b.pool (e.constants q.scope) <+: q.final)
    (hahead : b.upcoming = ts ++ semi :: rest) (hmore : rest ≠ []) (hsemi : semi.kind = .semicolon)
    (what : Expectation) (op : Opcode) :
    b.Settles (e.Fits level b.pool q.final [] q.scope) (ts ++ [semi]) (e.constants q.scope)
      (e.code q.final q.scope ++ [.plain op]) q.locals
      (((expression depth b).expect .semicolon what).emit op) :=
  ((hb.settles_expression h hfinal hahead (Or.inl hsemi)).expect hb.ready hahead hmore hsemi
    what).emit hb.ready op

/-- A condition in parentheses with the jump that is taken when it fails. -/
theorem settles_condition (hb : Located q depth level b) {e : Expr} {ts rest : List Token}
    {l r : Token} (hl : l.kind = .leftParen) (h : WholeExpr e ts) (hr : r.kind = .rightParen)
    (hfinal : grow b.pool (e.constants q.scope) <+: q.final)
    (hahead : b.upcoming = l :: ts ++ r :: rest) (hmore : rest ≠ []) (opening : Expectation) :
    b.Settles (e.Fits level b.pool q.final [] q.scope) (l :: ts ++ [r]) (e.constants q.scope)
        (e.code q.final q.scope ++ [.jump .jumpIfFalse distanceMax, .plain .pop]) q.locals
        (b.condition (expression depth) opening).1 ∧
      (e.Fits level b.pool q.final [] q.scope → (b.condition (expression depth) opening).2 =
        b.chunk.size + codeSize (e.code q.final q.scope) + 1) := by
  have hopen := hb.ready.compiles_expect hahead (by simp) hl opening
  rw [hb.locals] at hopen
  have hinside := hb.same hopen
  have hpool : (b.expect .leftParen opening).pool = b.pool := hopen.pool
  have hbehind : (b.expect .leftParen opening).upcoming = ts ++ r :: rest := hopen.upcoming hahead
  have hexpr := hinside.settles_expression h (hpool.symm ▸ hfinal) hbehind (Or.inr hr)
  have hclose := hexpr.expect hinside.ready hbehind hmore hr .parenAfterCondition
  obtain ⟨hjump, hoffset⟩ := hclose.emitJump hinside.ready .jumpIfFalse
  have hpop := hjump.emit hinside.ready .pop
  have hsize : (b.expect .leftParen opening).chunk.size = b.chunk.size := hopen.wrote.size
  rw [hpool] at hpop hoffset
  rw [hsize] at hoffset
  have hwhole := hopen.settles hpop
  refine ⟨?_, hoffset⟩
  simpa [condition] using hwhole

end Located

/-- The tokens of the statement are compiled to its code if it fits, wherever a statement
may stand. -/
def StmtSettled (s : Stmt) (ts : List Token) : Prop :=
  ∀ (q : Place) (depth level : Nat) (b : Builder) (u : Token) (rest : List Token),
    Located q depth level b → grow b.pool (s.constants q.top q.scope) <+: q.final →
      b.upcoming = ts ++ u :: rest →
    (s.takesElse = true → u.kind ≠ .elseWord) →
    b.Settles (q.Fits level b.pool s) ts (s.constants q.top q.scope) (s.code q.final q.top q.scope)
      q.locals (statement depth b)

/-- It is enough to settle a statement on the level that has been opened for it. -/
theorem StmtSettled.of_within {s : Stmt} {ts : List Token} (hlevels : 0 < s.levels)
    (h : ∀ (q : Place) (depth level : Nat) (b : Builder) (u : Token) (rest : List Token),
      Located q depth (level + 1) b → grow b.pool (s.constants q.top q.scope) <+: q.final →
        b.upcoming = ts ++ u :: rest →
      (s.takesElse = true → u.kind ≠ .elseWord) →
      b.Settles (q.Fits level b.pool s) ts (s.constants q.top q.scope)
        (s.code q.final q.top q.scope)
        q.locals (statementWithin (statement depth) (expression depth) b)) :
    StmtSettled s ts := by
  intro q depth level b u rest hb hfinal hahead helse
  have hlevel : q.Fits level b.pool s → level < nestingMax := by
    intro hfits
    have hle : level + s.levels ≤ nestingMax := hfits.1
    omega
  have hpos : 0 < depth := by
    have := hb.deep
    have := hb.within
    omega
  obtain ⟨depth, rfl⟩ : ∃ d, depth = d + 1 := ⟨depth - 1, by omega⟩
  refine hb.placed.settles_nested hlevel fun hplaced => ?_
  exact h q depth level b.deeper u rest (hb.inner hplaced.level) hfinal hahead helse

/-- A statement behind what has been settled. -/
theorem StmtSettled.settles {s : Stmt} {us : List Token} (hs : StmtSettled s us) {q : Place}
    {depth level : Nat} {b b' : Builder} (hb : Located q depth level b) {fits : Prop}
    {ts rest : List Token} {u : Token} {constants : List Value} {items : List Item}
    (h : b.Settles fits ts constants items q.locals b')
    (hfinal : grow (grow b.pool constants) (s.constants q.top q.scope) <+: q.final)
    (hahead : b.upcoming = ts ++ (us ++ u :: rest))
    (helse : s.takesElse = true → u.kind ≠ .elseWord) :
    b.Settles (fits ∧ q.Fits level (grow b.pool constants) s) (ts ++ us)
      (constants ++ s.constants q.top q.scope) (items ++ s.code q.final q.top q.scope) q.locals
      (statement depth b') := by
  refine h.trans (closed_soiled.statement _ _) fun hcompiles => ?_
  have hsettled := hs q depth level b' u rest (hb.same hcompiles) (hcompiles.pool.symm ▸ hfinal)
    (hcompiles.upcoming hahead) helse
  rwa [hcompiles.pool] at hsettled

section Statements

theorem stmtSettled_print {p semi : Token} {e : Expr} {ts : List Token} (hp : p.kind = .printWord)
    (he : WholeExpr e ts) (hsemi : semi.kind = .semicolon) :
    StmtSettled (.print e) (p :: ts ++ [semi]) := by
  refine StmtSettled.of_within (Nat.succ_pos _) fun q depth level b u rest hb hfinal hahead _ => ?_
  have hahead' : b.upcoming = p :: (ts ++ semi :: u :: rest) := by simpa using hahead
  obtain ⟨hcurrent, hadvance, hmoved, hpool, hnext⟩ := hb.word hahead' (by simp)
  have hsimple := hmoved.settles_simple he (hpool.symm ▸ hfinal) hnext
    (by simp) hsemi .semicolonAfterValue .print
  rw [hpool] at hsimple
  have hwithin : statementWithin (statement depth) (expression depth) b =
      b.advance.printStatement (expression depth) := by
    simp only [statementWithin, hcurrent, hp]
  rw [hwithin]
  refine (hadvance.settles hsimple).iff ?_
  exact Stmt.fits_simple rfl rfl rfl rfl rfl hb.few

theorem stmtSettled_expression {semi : Token} {e : Expr} {ts : List Token}
    (he : WholeExpr e ts) (hsemi : semi.kind = .semicolon) :
    StmtSettled (.expression e) (ts ++ [semi]) := by
  refine StmtSettled.of_within (Nat.succ_pos _) fun q depth level b u rest hb hfinal hahead _ => ?_
  have hahead' : b.upcoming = ts ++ semi :: u :: rest := by simpa using hahead
  obtain ⟨t, more, l, rfl, hl⟩ := he.exists_lead
  have hcurrent : b.current = t := List.head_eq_of_cons_eq hahead'
  have hsimple := hb.settles_simple he hfinal hahead' (by simp) hsemi .semicolonAfterExpression .pop
  have hwithin : statementWithin (statement depth) (expression depth) b =
      b.expressionStatement (expression depth) := by
    unfold statementWithin
    rw [hcurrent]
    split <;> first | rfl | (rename_i hkind; rw [hkind] at hl; cases hl)
  rw [hwithin]
  refine hsimple.iff ?_
  exact Stmt.fits_simple rfl rfl rfl rfl rfl hb.few

theorem stmtSettled_while {w l r : Token} {condition : Expr} {body : Stmt} {ts us : List Token}
    (hw : w.kind = .whileWord) (hl : l.kind = .leftParen) (hc : WholeExpr condition ts)
    (hr : r.kind = .rightParen) (hbody : StmtSettled body us) :
    StmtSettled (.whileLoop condition body) (w :: l :: ts ++ r :: us) := by
  refine StmtSettled.of_within (Nat.succ_pos _)
    fun q depth level b u rest hb hfinal hahead helse => ?_
  have hahead' : b.upcoming = w :: (l :: ts ++ r :: (us ++ u :: rest)) := by simpa using hahead
  obtain ⟨hcurrent, hadvance, hmoved, hpool, hnext⟩ := hb.word hahead' (by simp)
  simp only [Stmt.constants, grow_append] at hfinal
  rw [← hpool] at hfinal ⊢
  obtain ⟨htest, hexit⟩ := hmoved.settles_condition hl hc hr ((prefix_grow _ _).trans hfinal) hnext
    (by simp) .parenAfterWhile
  have hrun := hbody.settles hmoved htest hfinal (by simpa using hnext) helse
  have hwithin : statementWithin (statement depth) (expression depth) b =
      b.advance.whileStatement (statement depth) (expression depth) := by
    simp only [statementWithin, hcurrent, hw]
  rw [hwithin]
  unfold whileStatement
  dsimp only
  have hfits : q.Fits level b.advance.pool (.whileLoop condition body) ↔ _ := Stmt.fits_while
  have hcode : (Stmt.whileLoop condition body).code q.final q.top q.scope =
      loopCode (some (condition.code q.final q.scope)) (stepCode
        (codeSize (condition.code q.final q.scope) + 4) none (body.code q.final q.top q.scope)) :=
        rfl
  rw [hcode]
  generalize condition.code q.final q.scope = C at *
  generalize body.code q.final q.top q.scope = B at *
  have hloop := hrun.emitLoop b.advance.chunk.size
    (codeSize C + 4 + codeSize B + 3) (fun _ => by
      simp only [codeSize_append, codeSize_cons, codeSize_nil, Item.size]
      omega) (by omega)
  have hback : C ++ [.jump .jumpIfFalse distanceMax, .plain .pop] ++ B ++
      [.jump .loop (codeSize C + 4 + codeSize B + 3)] = C ++ .jump .jumpIfFalse distanceMax ::
        (.plain .pop :: (B ++ [.jump .loop (codeSize C + 4 + codeSize B + 3)])) := by simp
  rw [hback] at hloop
  have hpatch := Settles.patchJump _ _ hloop fun hfits => hexit hfits.1.1
  have hdone := hadvance.settles (hpatch.emit hmoved.ready .pop)
  refine hdone.congr (hfits.trans ?_) (by simp) rfl (by simp [loopCode, stepCode, Item.size])
  simp [Item.size, distanceMax, Place.Fits, and_assoc]

/-- The second branch of an `if`, or the lack of one. -/
def ElseSettled (no : Stmt) (ts : List Token) : Prop :=
  ∀ (q : Place) (depth level : Nat) (b : Builder) (u : Token) (rest : List Token),
    Located q depth level b → grow b.pool (no.constants q.top q.scope) <+: q.final →
    b.upcoming = ts ++ u :: rest → (no = .skip ∨ no.takesElse = true → u.kind ≠ .elseWord) →
    b.Settles (q.Fits level b.pool no) ts (no.constants q.top q.scope)
      (no.code q.final q.top q.scope) q.locals
      (if b.sees .elseWord then statement depth b.advance else b)

theorem elseSettled_skip : ElseSettled .skip [] := by
  intro q depth level b u rest hb _ hahead helse
  have hcurrent : b.current = u := List.head_eq_of_cons_eq hahead
  have hsees : b.sees .elseWord = false := by simp [sees, hcurrent, helse (Or.inl rfl)]
  rw [if_neg (Bool.eq_false_iff.mp hsees)]
  have hnothing := hb.ready.compiles_nothing
  rw [hb.locals] at hnothing
  exact Or.inl ⟨Stmt.fits_skip hb.within hb.ready.room hb.few, hnothing⟩

theorem elseSettled_cons {e : Token} {no : Stmt} {ts : List Token} (he : e.kind = .elseWord)
    (hno : StmtSettled no ts) : ElseSettled no (e :: ts) := by
  intro q depth level b u rest hb hfinal hahead helse
  obtain ⟨hcurrent, hadvance, hmoved, hpool, hnext⟩ := hb.word hahead (by simp)
  have hsees : b.sees .elseWord = true := by simp [sees, hcurrent, he]
  rw [if_pos hsees]
  rw [← hpool] at hfinal ⊢
  exact hadvance.settles (hno q depth level b.advance u rest hmoved hfinal hnext
    fun htakes => helse (Or.inr htakes))

theorem soiled_else {depth : Nat} {b : Builder} (h : b.Soiled) :
    (if b.sees .elseWord then statement depth b.advance else b).Soiled := by
  split
  · exact closed_soiled.statement depth _ (closed_soiled.advance b h)
  · exact h

theorem takesElse_branch (condition : Expr) (yes : Stmt) {no : Stmt}
    (h : no = .skip ∨ no.takesElse = true) : (Stmt.branch condition yes no).takesElse = true := by
  cases no with
  | skip => rfl
  | _ => exact h.resolve_left (by simp)

theorem stmtSettled_if {i l r : Token} {condition : Expr} {yes no : Stmt} {ts us vs : List Token}
    (hi : i.kind = .ifWord) (hl : l.kind = .leftParen) (hc : WholeExpr condition ts)
    (hr : r.kind = .rightParen) (hyes : StmtSettled yes us) (hno : ElseSettled no vs)
    (hopen : ∀ v more, vs = v :: more → yes.takesElse = true → v.kind ≠ .elseWord)
    (hskip : vs = [] → no = .skip) :
    StmtSettled (.branch condition yes no) (i :: l :: ts ++ r :: us ++ vs) := by
  refine StmtSettled.of_within (Nat.succ_pos _)
    fun q depth level b u rest hb hfinal hahead helse => ?_
  have hahead' : b.upcoming = i :: (l :: ts ++ r :: (us ++ (vs ++ u :: rest))) := by
    simpa using hahead
  obtain ⟨hcurrent, hadvance, hmoved, hpool, hnext⟩ := hb.word hahead' (by simp)
  simp only [Stmt.constants, grow_append] at hfinal
  rw [← hpool] at hfinal ⊢
  obtain ⟨v, more, hv, hclosed⟩ : ∃ v more, vs ++ u :: rest = v :: more ∧
      (yes.takesElse = true → v.kind ≠ .elseWord) := by
    cases vs with
    | nil => exact ⟨u, rest, rfl, fun _ => helse (takesElse_branch _ _ (Or.inl (hskip rfl)))⟩
    | cons v more => exact ⟨v, more ++ u :: rest, rfl, hopen v more rfl⟩
  obtain ⟨htest, hthen⟩ := hmoved.settles_condition hl hc hr
    ((prefix_grow _ _).trans ((prefix_grow _ _).trans hfinal)) hnext (by simp) .parenAfterIf
  have hbehind : b.advance.upcoming = l :: ts ++ [r] ++ (us ++ v :: more) := by
    rw [hnext, hv]
    simp
  have hrun := hyes.settles hmoved htest ((prefix_grow _ _).trans hfinal) hbehind hclosed
  have hwithin : statementWithin (statement depth) (expression depth) b =
      b.advance.ifStatement (statement depth) (expression depth) := by
    simp only [statementWithin, hcurrent, hi]
  rw [hwithin]
  unfold ifStatement
  dsimp only
  have hfits : q.Fits level b.advance.pool (.branch condition yes no) ↔ _ := Stmt.fits_branch
  rw [Stmt.code]
  generalize condition.code q.final q.scope = C at *
  generalize yes.code q.final q.top q.scope = Y at *
  have hshape : C ++ [.jump .jumpIfFalse distanceMax, .plain .pop] ++ Y =
      C ++ .jump .jumpIfFalse distanceMax :: (.plain .pop :: Y) := by simp
  rw [hshape] at hrun
  obtain ⟨hother, helseJump⟩ :=
    Located.settles_otherwise hmoved.ready hrun fun hboth => hthen hboth.1
  have hsecond := hother.trans soiled_else fun hcompiles => by
    have hlocated := hmoved.same hcompiles
    have hpool' := hcompiles.pool
    rw [grow_append] at hpool'
    have hupcoming : Builder.upcoming _ = vs ++ u :: rest := hcompiles.upcoming (by
      rw [hnext]
      simp)
    have helse' := hno q depth (level + 1) _ u rest hlocated (hpool' ▸ hfinal) hupcoming
      fun htakes => helse (takesElse_branch _ _ htakes)
    rwa [hpool'] at helse'
  generalize no.code q.final q.top q.scope = N at *
  have hjoin : C ++ .jump .jumpIfFalse (codeSize (.plain .pop :: Y) + 3) :: .plain .pop :: Y ++
      [.jump .jump distanceMax, .plain .pop] ++ N =
        C ++ .jump .jumpIfFalse (codeSize (.plain .pop :: Y) + 3) :: .plain .pop :: Y ++
          .jump .jump distanceMax :: (.plain .pop :: N) := by simp
  rw [hjoin] at hsecond
  have hdone := hadvance.settles (Settles.patchJump _ _ hsecond fun hall =>
    helseJump hall.1.1)
  refine hdone.congr (hfits.trans ?_) (by simp) (by simp [Stmt.constants])
    (by simp [Item.size, Nat.add_assoc])
  simp [Item.size, distanceMax, Place.Fits, and_assoc]

end Statements

end StackScript.Builder
