import StackScript.Proofs.Lockstep.Expression

/-!
Statements, declarations and whole programs in lockstep.
-/

namespace StackScript.Builder.Lockstep

variable {L : Lockstep} {f g : Builder → Builder} {b b' : Builder}

/-- A branch on the current token, which is of the same kind on both sides. -/
theorem Loose.branch (h : L.Loose b b') (kind : TokenKind) (hf : ∀ b, L.Lasts b (f b))
    (hg : ∀ b, L.Lasts b (g b)) (hthen : L.Tight (f b) (f b'))
    (helse : L.Tight (g b) (g b')) :
    L.Tight (if b.sees kind then f b else g b) (if b'.sees kind then f b' else g b') := by
  have hlasts (c : Builder) : L.Lasts c (if c.sees kind then f c else g c) := by
    split
    · exact hf c
    · exact hg c
  refine h.bind (hlasts b) (hlasts b') fun h => ?_
  rw [(L.resembles h).sees kind]
  split
  · exact hthen
  · exact helse

theorem Loose.synchronize
    (h : L.loose { b with panicking := false } { b' with panicking := false }) :
    L.Loose b.synchronize b'.synchronize := by
  have hadvance : L.Steps L.loose L.loose Builder.advance :=
    ⟨L.closed.advance, closed_unread.advance, fun _ => ⟨Nat.le_refl _, Nat.le_refl _⟩,
      fun h => (Loose.advance (Or.inl h)).loose⟩
  refine hadvance.repeatWhile_unread id (fun h => ?_) h
  rw [(L.resembles h).sees, (L.resembles h).previous, (L.resembles h).current]

/-- The end of a declaration: a panic is left there. -/
theorem Tight.settle (h : L.Tight b b') : L.Loose (if b.panicking then b.synchronize else b)
    (if b'.panicking then b'.synchronize else b') := by
  have hlasts (c : Builder) : L.Lasts c (if c.panicking then c.synchronize else c) := by
    split
    · exact L.closed.synchronize c
    · exact L.closed.refl c
  refine h.bind (hlasts b) (hlasts b') fun h => ?_
  rw [(L.resembles (L.loosen h)).panicking]
  split
  · exact Loose.synchronize (L.recover h)
  · exact Or.inl (L.loosen h)

/-- A jump on a condition that is dropped behind it. -/
theorem Tight.emitTest (h : L.Tight b b') : L.TightWith
    ((b.emitJump .jumpIfFalse).1.emit .pop, (b.emitJump .jumpIfFalse).2)
    ((b'.emitJump .jumpIfFalse).1.emit .pop, (b'.emitJump .jumpIfFalse).2) L.Offsets :=
  (h.emitJump .jumpIfFalse).bind (L.closed.emit _ .pop) (L.closed.emit _ .pop) fun h =>
    (Tight.emit (Or.inl h.1) .pop).imp_left fun hpop => ⟨hpop, h.2⟩

theorem Tight.otherwise (h : L.Tight b b') {thenJump thenJump' : Nat}
    (hthen : L.Offsets thenJump thenJump') :
    L.TightWith (b.otherwise thenJump) (b'.otherwise thenJump') L.Offsets := by
  have hrest (jump : Nat) (c : Builder) : L.Lasts c ((c.patchJump jump).emit .pop) :=
    (L.closed.patchJump _ _).trans (L.closed.emit _ _)
  refine (h.emitJump .jump).bind (hrest thenJump _) (hrest thenJump' _) fun ⟨htight, helse⟩ => ?_
  exact ((Tight.patchJump (Or.inl htight) hthen).emit .pop).imp_left fun h => ⟨h, helse⟩

/-- The jump that leaves a loop, if there is one. -/
def Exits (L : Lockstep) : Option Nat → Option Nat → Prop := Option.Rel L.Offsets

theorem Tight.forExit (h : L.Tight b b') {exit exit' : Option Nat} (hexit : L.Exits exit exit') :
    L.Tight (b.forExit exit) (b'.forExit exit') := by
  cases hexit with
  | none => exact h
  | some hjump => exact (h.patchJump hjump).emit .pop

theorem Tight.beginScope (h : L.Tight b b') : L.Tight b.beginScope b'.beginScope := by
  have hlasts (c : Builder) : L.Lasts c c.beginScope := L.lasts_of fun hP => hP.scopeDepth _
  exact h.bind (hlasts b) (hlasts b') fun h => Or.inl (L.beginScope h)

theorem Tight.endScope (h : L.Tight b b') : L.Tight b.endScope b'.endScope := by
  have hlasts (c : Builder) : L.Lasts c c.endScope := L.lasts_of fun hP => hP.endScope
  exact h.bind (hlasts b) (hlasts b') fun h => Or.inl (L.endScope h)

section Bodies

variable {statement expression : Builder → Builder}
    (hexpression : L.Steps L.loose L.tight expression)
include hexpression

theorem Loose.varDeclaration (h : L.Loose b b') :
    L.Tight (b.varDeclaration expression) (b'.varDeclaration expression) := by
  have hinit (c : Builder) : L.Lasts c (expression c.advance) :=
    (L.closed.advance c).trans (hexpression.lasts _)
  have hrest (r : Builder × UInt8) : L.Lasts r.1
      (((if r.1.sees .assign then expression r.1.advance else r.1.emit .pushNil).expect .semicolon
        .semicolonAfterDeclaration).defineVariable r.2) := by
    refine Lasts.trans ?_ ((L.closed.expect _ _ _).trans (L.closed.defineVariable _ _))
    split
    · exact hinit _
    · exact L.closed.emit _ _
  refine h.readVariable.bind (hrest b.readVariable) (hrest b'.readVariable) fun ⟨htight, hname⟩ =>
    ?_
  have hread : L.Tight b.readVariable.1 b'.readVariable.1 := Or.inl htight
  have hvalue := hread.loose.branch .assign hinit (fun c => L.closed.emit c .pushNil)
    (hexpression.apply hread.loose.advance.loose) (hread.emit .pushNil)
  exact (hvalue.expect .semicolon .semicolonAfterDeclaration).defineVariable hname

theorem Loose.printStatement (h : L.Loose b b') :
    L.Tight (b.printStatement expression) (b'.printStatement expression) :=
  ((Tight.expect (hexpression.apply h) _ _)).emit .print

theorem Loose.expressionStatement (h : L.Loose b b') :
    L.Tight (b.expressionStatement expression) (b'.expressionStatement expression) :=
  ((Tight.expect (hexpression.apply h) _ _)).emit .pop

theorem Loose.condition (h : L.Loose b b') (opening : Expectation) :
    L.TightWith (b.condition expression opening) (b'.condition expression opening) L.Offsets :=
  Tight.emitTest (Tight.expect (hexpression.apply (h.expect _ _).loose) _ _)

theorem Loose.forStart (h : L.Loose b b') :
    L.Tight (b.forStart expression) (b'.forStart expression) := by
  have hlasts (c : Builder) := L.closed.forStart hexpression.lasts c
  refine h.bind (hlasts b) (hlasts b') fun hloose => ?_
  unfold Builder.forStart
  rw [(L.resembles hloose).sees, (L.resembles hloose).sees]
  split
  · exact h.advance
  · split
    · exact h.advance.loose.varDeclaration hexpression
    · exact h.expressionStatement hexpression

theorem Loose.forCondition (h : L.Loose b b') :
    L.TightWith (b.forCondition expression) (b'.forCondition expression) L.Exits := by
  refine h.bind (L.closed.forCondition hexpression.lasts b)
    (L.closed.forCondition hexpression.lasts b') fun hloose => ?_
  unfold Builder.forCondition
  rw [(L.resembles hloose).sees]
  split
  · exact h.advance.imp_left fun h => ⟨h, .none⟩
  · exact (Tight.emitTest (Tight.expect (hexpression.apply h) _ _)).imp_left fun h =>
      ⟨h.1, .some h.2⟩

theorem Tight.forIncrement (h : L.Tight b b') {loopStart loopStart' : Nat}
    (hstart : L.Offsets loopStart loopStart') :
    L.TightWith (b.forIncrement expression loopStart) (b'.forIncrement expression loopStart')
      L.Offsets := by
  refine h.bind (L.closed.forIncrement hexpression.lasts loopStart b)
    (L.closed.forIncrement hexpression.lasts loopStart' b') fun htight => ?_
  have hjump := h.emitJump .jump
  have hrest (start : Nat) (r : Builder × Nat) : L.Lasts r.1
      (((((expression r.1).emit .pop).expect .rightParen .parenAfterForClauses).emitLoop
        start).patchJump r.2) :=
    (hexpression.lasts _).trans ((L.closed.emit _ _).trans ((L.closed.expect _ _ _).trans
      ((L.closed.emitLoop _ _).trans (L.closed.patchJump _ _))))
  unfold Builder.forIncrement
  rw [(L.resembles (L.loosen htight)).sees]
  split
  · exact h.loose.advance.imp_left fun h => ⟨h, hstart⟩
  · generalize b.emitJump .jump = r at hjump ⊢
    generalize b'.emitJump .jump = r' at hjump ⊢
    refine hjump.bind (hrest loopStart r) (hrest loopStart' r') fun ⟨hwrote, hbody⟩ => ?_
    have hvalue := hexpression.apply (Or.inl (L.loosen hwrote))
    have hback := Tight.emitLoop (Tight.expect (Tight.emit hvalue .pop) .rightParen
      .parenAfterForClauses) hstart
    exact (Tight.patchJump hback hbody).imp_left fun h => ⟨h, Tight.size hwrote⟩

/-- The jump that leaves a loop, and the offset that its body jumps back to. -/
def Bounds (L : Lockstep) (r r' : Option Nat × Nat) : Prop :=
  L.Exits r.1 r'.1 ∧ L.Offsets r.2 r'.2

theorem Tight.forClauses (h : L.Tight b b') :
    L.TightWith (b.forClauses expression) (b'.forClauses expression) L.Bounds := by
  have hincrement (start : Nat) (c : Builder) := L.closed.forIncrement hexpression.lasts start c
  have hcondition (c : Builder) := L.closed.forCondition hexpression.lasts c
  have hstart := (h.expect .leftParen .parenAfterFor).loose.forStart hexpression
  unfold Builder.forClauses
  dsimp only
  generalize (b.expect .leftParen .parenAfterFor).forStart expression = c at hstart ⊢
  generalize (b'.expect .leftParen .parenAfterFor).forStart expression = c' at hstart ⊢
  have htest := hstart.loose.forCondition hexpression
  have hlasts := hcondition c
  have hlasts' := hcondition c'
  generalize c.forCondition expression = r at htest hlasts ⊢
  generalize c'.forCondition expression = r' at htest hlasts' ⊢
  refine hstart.bind (hlasts.trans (hincrement _ r.1)) (hlasts'.trans (hincrement _ r'.1))
    fun hbegun => ?_
  refine htest.bind (hincrement _ r.1) (hincrement _ r'.1) fun ⟨htight, hexit⟩ => ?_
  exact (Tight.forIncrement hexpression (Or.inl htight) (Tight.size hbegun)).imp_left fun h =>
    ⟨h.1, hexit, h.2⟩

theorem Tight.returnStatement (h : L.Tight b b') :
    L.Tight (b.returnStatement expression) (b'.returnStatement expression) :=
  have hreported :
      L.Loose (b.errorAtPrevious .topLevelReturn) (b'.errorAtPrevious .topLevelReturn) :=
    (h.errorAtPrevious .topLevelReturn nofun).loose
  hreported.branch .semicolon L.closed.advance
    (fun c => (hexpression.lasts c).trans (L.closed.expect _ _ _))
    hreported.advance (Tight.expect (hexpression.apply hreported) _ _)

variable (hstatement : L.Steps L.loose L.tight statement)
include hstatement

theorem Loose.declaration (h : L.Loose b b') :
    L.Loose (b.declaration statement expression) (b'.declaration statement expression) := by
  have hvar (c : Builder) : L.Lasts c (c.advance.varDeclaration expression) :=
    (L.closed.advance c).trans (L.closed.varDeclaration hexpression.lasts _)
  have hread := h.branch .varWord hvar hstatement.lasts
    (h.advance.loose.varDeclaration hexpression) (hstatement.apply h)
  unfold Builder.declaration
  exact hread.settle

theorem Loose.block (h : L.Loose b b') :
    L.Tight (b.block statement expression) (b'.block statement expression) := by
  have hlasts (c : Builder) := L.closed.block hstatement.lasts hexpression.lasts c
  have hdeclaration : L.Steps L.loose L.loose (Builder.declaration statement expression) :=
    ⟨L.closed.declaration hstatement.lasts hexpression.lasts,
      closed_unread.declaration hstatement.reads hexpression.reads,
      fun h => ⟨unread_declaration hexpression.reads (hstatement.moves h).1,
        unread_declaration hexpression.reads (hstatement.moves h).2⟩,
      fun h => Loose.declaration hexpression hstatement (Or.inl h)⟩
  refine h.bind (hlasts b) (hlasts b') fun h => ?_
  refine Loose.expect (hdeclaration.repeatWhile_unread id (fun h => ?_) h) _ _
  rw [(L.resembles h).sees, (L.resembles h).sees]

omit hexpression in
/-- The branch behind `else`, if there is one. -/
theorem Tight.elseBranch (h : L.Tight b b') {elseJump elseJump' : Nat}
    (helse : L.Offsets elseJump elseJump') :
    L.Tight ((if b.sees .elseWord then statement b.advance else b).patchJump elseJump)
      ((if b'.sees .elseWord then statement b'.advance else b').patchJump elseJump') :=
  Tight.patchJump (h.loose.branch .elseWord
    (fun c => (L.closed.advance c).trans (hstatement.lasts _)) L.closed.refl
    (hstatement.apply h.loose.advance.loose) h) helse

theorem Loose.ifStatement (h : L.Loose b b') :
    L.Tight (b.ifStatement statement expression) (b'.ifStatement statement expression) := by
  have helse (r : Builder × Nat) : L.Lasts r.1
      ((if r.1.sees .elseWord then statement r.1.advance else r.1).patchJump r.2) := by
    refine Lasts.trans ?_ (L.closed.patchJump _ _)
    split
    · exact (L.closed.advance _).trans (hstatement.lasts _)
    · exact L.closed.refl _
  have hbranches (r : Builder × Nat) := (hstatement.lasts r.1).trans
    ((L.closed.otherwise r.2 (statement r.1)).trans (helse ((statement r.1).otherwise r.2)))
  have htest := h.condition hexpression .parenAfterIf
  unfold Builder.ifStatement
  dsimp only
  generalize b.condition expression .parenAfterIf = r at htest ⊢
  generalize b'.condition expression .parenAfterIf = r' at htest ⊢
  refine htest.bind (hbranches r) (hbranches r') fun ⟨htight, hthen⟩ => ?_
  have hbranch := Tight.otherwise (hstatement.apply (Or.inl (L.loosen htight))) hthen
  generalize (statement r.1).otherwise r.2 = q at hbranch ⊢
  generalize (statement r'.1).otherwise r'.2 = q' at hbranch ⊢
  exact hbranch.bind (helse q) (helse q') fun h =>
    Tight.elseBranch hstatement (Or.inl h.1) h.2

theorem Tight.whileStatement (h : L.Tight b b') :
    L.Tight (b.whileStatement statement expression) (b'.whileStatement statement expression) := by
  have hlasts (c : Builder) := L.closed.whileStatement hstatement.lasts hexpression.lasts c
  have hrest (start : Nat) (r : Builder × Nat) : L.Lasts r.1
      ((((statement r.1).emitLoop start).patchJump r.2).emit .pop) :=
    (hstatement.lasts _).trans ((L.closed.emitLoop _ _).trans ((L.closed.patchJump _ _).trans
      (L.closed.emit _ _)))
  have htest := h.loose.condition hexpression .parenAfterWhile
  refine h.bind (hlasts b) (hlasts b') fun hbegun => ?_
  unfold Builder.whileStatement
  dsimp only
  generalize b.condition expression .parenAfterWhile = r at htest ⊢
  generalize b'.condition expression .parenAfterWhile = r' at htest ⊢
  refine htest.bind (hrest _ r) (hrest _ r') fun ⟨htight, hexit⟩ => ?_
  have hbody := hstatement.apply (Or.inl (L.loosen htight))
  exact Tight.emit (Tight.patchJump (Tight.emitLoop hbody (Tight.size hbegun)) hexit) .pop

theorem Tight.forStatement (h : L.Tight b b') :
    L.Tight (b.forStatement statement expression) (b'.forStatement statement expression) := by
  have hrest (r : Builder × Option Nat × Nat) : L.Lasts r.1
      (((statement r.1).emitLoop r.2.2).forExit r.2.1) :=
    (hstatement.lasts _).trans ((L.closed.emitLoop _ _).trans (L.closed.forExit _ _))
  have hclauses := h.beginScope.forClauses hexpression
  unfold Builder.forStatement
  generalize b.beginScope.forClauses expression = r at hclauses ⊢
  generalize b'.beginScope.forClauses expression = r' at hclauses ⊢
  refine Tight.endScope (hclauses.bind (hrest r) (hrest r') fun ⟨htight, hexit, hback⟩ => ?_)
  have hbody := hstatement.apply (Or.inl (L.loosen htight))
  exact Tight.forExit (Tight.emitLoop hbody hback) hexit

theorem Loose.statementWithin (h : L.Loose b b') :
    L.Tight (statementWithin statement expression b) (statementWithin statement expression b') := by
  have hlasts (c : Builder) := L.closed.statementWithin hstatement.lasts hexpression.lasts c
  refine h.bind (hlasts b) (hlasts b') fun hloose => ?_
  unfold Builder.statementWithin
  rw [← (L.resembles hloose).current]
  split
  · exact h.advance.loose.printStatement hexpression
  · exact h.advance.forStatement hexpression hstatement
  · exact h.advance.loose.ifStatement hexpression hstatement
  · exact h.advance.returnStatement hexpression
  · exact h.advance.whileStatement hexpression hstatement
  · exact (h.advance.beginScope.loose.block hexpression hstatement).endScope
  · exact h.expressionStatement hexpression

end Bodies

theorem Levels.statement (hL : L.Levels) (depth : Nat) {n : Nat} (hn : n ≤ nestingMax)
    (hdepth : nestingMax < depth + n) :
    (L.atLevel n).Steps (L.atLevel n).loose (L.atLevel n).tight (statement depth) := by
  induction depth generalizing n with
  | zero => exact absurd hdepth (by omega)
  | succ depth ih =>
      have hlasts := L.closed.statementWithin (L.closed.statement depth) (L.closed.expression depth)
      have hreads := closed_unread.statementWithin (closed_unread.statement depth)
        (closed_unread.expression depth)
      refine hL.nested hlasts hreads (fun hlt => ?_) hn
      have hexpression := hL.expression depth hlt (by omega)
      have hstatement := ih hlt (by omega)
      exact ⟨hlasts, hreads,
        fun h => ⟨unread_statementWithin hexpression.reads hstatement.reads (hexpression.moves h).1,
          unread_statementWithin hexpression.reads hstatement.reads (hexpression.moves h).2⟩,
        fun h => Loose.statementWithin hexpression hstatement (Or.inl h)⟩

/-- A declaration at the top level, where no level is open. -/
theorem Levels.topDeclaration (hL : L.Levels) :
    (L.atLevel 0).Steps (L.atLevel 0).loose (L.atLevel 0).loose topDeclaration where
  lasts := L.closed.topDeclaration
  reads := movesOn_topDeclaration.unread_le
  moves _ := ⟨movesOn_topDeclaration.unread _, movesOn_topDeclaration.unread _⟩
  keeps h := Loose.declaration (hL.expression _ (Nat.zero_le _) (by omega))
    (hL.statement _ (Nat.zero_le _) (by omega)) (Or.inl h)

/-- The declarations up to the end of the text. -/
theorem Levels.declarations (hL : L.Levels) (bound bound' : List Token)
    (hbound : bound.length = bound'.length) (h : (L.atLevel 0).Loose b b') :
    (L.atLevel 0).Loose (repeatWhile (fun b => !b.sees .endOfFile) Builder.topDeclaration bound b)
      (repeatWhile (fun b => !b.sees .endOfFile) Builder.topDeclaration bound' b') :=
  hL.topDeclaration.repeatWhile (fun h => by rw [(L.resembles h.1).sees]) _ _ hbound h

end StackScript.Builder.Lockstep
