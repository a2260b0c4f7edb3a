import StackScript.Proofs.Compiler.Program
import StackScript.Proofs.Code.Balance

/-!
The states in which the compiler comes to a declaration. Behind every one of them, the
code of the declaration starts at one of the starts of the tree, and the compiler has as
many locals as the tree has in scope there.
-/

namespace StackScript.Builder

open Tree TokenKind

mutual

/-- In the course of a statement from the first state, the compiler comes to a declaration
in the second. The number is the bound on the recursion below. -/
inductive Visits : Nat → Builder → Builder → Prop
  | nested {depth : Nat} {b y : Builder} (hroom : b.nesting ≠ nestingMax)
      (h : VisitsWithin depth b.deeper y) : Visits (depth + 1) b y

/-- The same on the level that has been opened for the statement. -/
inductive VisitsWithin : Nat → Builder → Builder → Prop
  | block {depth : Nat} {b y : Builder} (hkind : b.current.kind = .leftBrace)
      (h : VisitsAll depth (fun b => !b.sees .rightBrace && !b.sees .endOfFile)
        b.advance.beginScope.unread b.advance.beginScope y) : VisitsWithin depth b y
  | thenBranch {depth : Nat} {b y : Builder} (hkind : b.current.kind = .ifWord)
      (h : Visits depth (b.advance.condition (expression depth) .parenAfterIf).1 y) :
      VisitsWithin depth b y
  | elseBranch {depth : Nat} {b b₁ b₂ b₃ y : Builder} {thenJump elseJump : Nat}
      (hkind : b.current.kind = .ifWord)
      (hcondition : b.advance.condition (expression depth) .parenAfterIf = (b₁, thenJump))
      (hthen : statement depth b₁ = b₂) (hother : b₂.otherwise thenJump = (b₃, elseJump))
      (hsees : b₃.sees .elseWord = true) (h : Visits depth b₃.advance y) : VisitsWithin depth b y
  | whileBody {depth : Nat} {b y : Builder} (hkind : b.current.kind = .whileWord)
      (h : Visits depth (b.advance.condition (expression depth) .parenAfterWhile).1 y) :
      VisitsWithin depth b y
  | forStart {depth : Nat} {b b' : Builder} (hkind : b.current.kind = .forWord)
      (hopened : b.advance.beginScope.expect .leftParen .parenAfterFor = b')
      (hsees : b'.sees .varWord = true) : VisitsWithin depth b b'
  | forBody {depth : Nat} {b y : Builder} (hkind : b.current.kind = .forWord)
      (h : Visits depth (b.advance.beginScope.forClauses (expression depth)).1 y) :
      VisitsWithin depth b y

/-- In the course of a loop over declarations, the compiler comes to one of them, or to one
inside them. -/
inductive VisitsAll : Nat → (Builder → Bool) → List Token → Builder → Builder → Prop
  | here {depth : Nat} {more : Builder → Bool} {t : Token} {bound : List Token} {b : Builder}
      (hmore : more b = true) : VisitsAll depth more (t :: bound) b b
  | inside {depth : Nat} {more : Builder → Bool} {t : Token} {bound : List Token} {b y : Builder}
      (hmore : more b = true) (hvar : b.sees .varWord = false) (h : Visits depth b y) :
      VisitsAll depth more (t :: bound) b y
  | later {depth : Nat} {more : Builder → Bool} {t : Token} {bound : List Token} {b y : Builder}
      (hmore : more b = true)
      (h : VisitsAll depth more bound (declaration (statement depth) (expression depth) b) y) :
      VisitsAll depth more (t :: bound) b y

end

/-- In the course of a program, the compiler comes to a declaration in this state. -/
def VisitsDeclaration (tokens : List Token) (y : Builder) : Prop :=
  VisitsAll (nestingMax + 1) (fun b => !b.sees .endOfFile) (atStart tokens).unread
    (atStart tokens) y

/-- From `b` on, the code written up to `y` ends at one of the starts, with as many locals. -/
def Started (b y : Builder) (starts : List (Nat × Nat)) : Prop :=
  ∃ start ∈ starts, y.chunk.size = b.chunk.size + start.1 ∧ y.locals.length = start.2

namespace Started

variable {b b' y : Builder} {starts others : List (Nat × Nat)}

theorem shift {distance : Nat} (h : Started b' y starts)
    (hsize : b'.chunk.size = b.chunk.size + distance) : Started b y (shift distance starts) := by
  obtain ⟨start, hmem, hy, hlocals⟩ := h
  refine ⟨_, List.mem_map_of_mem hmem, ?_, hlocals⟩
  rw [hy, hsize]
  exact Nat.add_assoc ..

theorem mono (h : Started b y starts) (hle : ∀ start ∈ starts, start ∈ others) :
    Started b y others :=
  let ⟨start, hmem, hy⟩ := h
  ⟨start, hle start hmem, hy⟩

/-- Reading alone does not change where the code ends. -/
theorem of_size (h : Started b' y starts) (hsize : b'.chunk.size = b.chunk.size) :
    Started b y starts := by
  obtain ⟨start, hmem, hy, hlocals⟩ := h
  exact ⟨start, hmem, by rw [hy, hsize], hlocals⟩

end Started

/-- Wherever a statement with these tokens may stand and fits, all declarations inside it
start as they should. -/
def StmtVisited (s : Stmt) (ts : List Token) : Prop :=
  ∀ (q : Place) (depth level : Nat) (b y : Builder) (u : Token) (rest : List Token),
    Located q depth level b → grow b.pool (s.constants q.top q.scope) <+: q.final →
    b.upcoming = ts ++ u :: rest → (s.takesElse = true → u.kind ≠ .elseWord) →
    q.Fits level b.pool s → Visits depth b y → Started b y (s.starts q.final q.top q.scope)

def ChainVisited (s : Stmt) (ts : List Token) : Prop :=
  ∀ (q : Place) (depth level : Nat) (b y : Builder) (u : Token) (rest bound : List Token)
    (stop : TokenKind → Bool) (more : Builder → Bool), Located q depth level b →
    grow b.pool (s.constants q.top q.scope) <+: q.final → b.upcoming = ts ++ u :: rest →
    Repeats stop more → stop u.kind = true → q.Fits level b.pool s →
    VisitsAll depth more bound b y → Started b y (s.starts q.final q.top q.scope)

/-- It is enough to look at the level that has been opened for a statement. -/
theorem StmtVisited.of_within {s : Stmt} {ts : List Token}
    (h : ∀ (q : Place) (depth level : Nat) (b y : Builder) (u : Token) (rest : List Token),
      Located q depth (level + 1) b → grow b.pool (s.constants q.top q.scope) <+: q.final →
      b.upcoming = ts ++ u :: rest → (s.takesElse = true → u.kind ≠ .elseWord) →
      q.Fits level b.pool s → VisitsWithin depth b y →
        Started b y (s.starts q.final q.top q.scope)) :
    StmtVisited s ts := by
  intro q depth level b y u rest hb hfinal hahead helse hfits hvisits
  cases hvisits with
  | @nested depth _ _ hroom hwithin =>
      have hlevel : level < nestingMax := by
        have hne := hroom
        rw [hb.nesting] at hne
        exact lt_of_le_of_ne hb.within hne
      exact h q depth level b.deeper y u rest (hb.inner hlevel) hfinal hahead helse hfits hwithin

/-- A simple statement has no declarations inside. -/
theorem not_visitsWithin {depth : Nat} {b y : Builder} (hblock : b.current.kind ≠ .leftBrace)
    (hif : b.current.kind ≠ .ifWord) (hwhile : b.current.kind ≠ .whileWord)
    (hfor : b.current.kind ≠ .forWord) : ¬ VisitsWithin depth b y := by
  intro h
  cases h with
  | block hkind _ => exact hblock hkind
  | thenBranch hkind _ => exact hif hkind
  | elseBranch hkind _ _ _ _ _ => exact hif hkind
  | whileBody hkind _ => exact hwhile hkind
  | forStart hkind _ _ => exact hfor hkind
  | forBody hkind _ => exact hfor hkind

theorem stmtVisited_print {p semi : Token} {e : Expr} {ts : List Token} (hp : p.kind = .printWord) :
    StmtVisited (.print e) (p :: ts ++ [semi]) := by
  refine StmtVisited.of_within fun q depth level b y u rest hb hfinal hahead _ hfits hvisits => ?_
  have hcurrent : b.current = p := List.head_eq_of_cons_eq hahead
  refine absurd hvisits (not_visitsWithin ?_ ?_ ?_ ?_) <;> simp [hcurrent, hp]

theorem stmtVisited_expression {semi : Token} {e : Expr} {ts : List Token} (he : WholeExpr e ts) :
    StmtVisited (.expression e) (ts ++ [semi]) := by
  refine StmtVisited.of_within fun q depth level b y u rest hb hfinal hahead _ hfits hvisits => ?_
  obtain ⟨t, more, l, rfl, hl⟩ := he.exists_lead
  have hcurrent : b.current = t := List.head_eq_of_cons_eq hahead
  refine absurd hvisits (not_visitsWithin ?_ ?_ ?_ ?_) <;>
    (rw [hcurrent]; intro hkind; rw [hkind] at hl; cases hl)

theorem stmtVisited_while {w l r : Token} {condition : Expr} {body : Stmt} {ts us : List Token}
    (hw : w.kind = .whileWord) (hl : l.kind = .leftParen) (hc : WholeExpr condition ts)
    (hr : r.kind = .rightParen) (hbody : StmtVisited body us) :
    StmtVisited (.whileLoop condition body) (w :: l :: ts ++ r :: us) := by
  refine StmtVisited.of_within
    fun q depth level b y u rest hb hfinal hahead helse hfits hvisits => ?_
  have hahead' : b.upcoming = w :: (l :: ts ++ r :: (us ++ u :: rest)) := by simpa using hahead
  obtain ⟨hcurrent, hadvance, hmoved, hpool, hnext⟩ := hb.word hahead' (by simp)
  obtain ⟨hcondition, hbodyFits, -, -⟩ := Stmt.fits_while.mp hfits
  simp only [Stmt.constants, grow_append] at hfinal
  rw [← hpool] at hfinal hcondition hbodyFits
  have htest := (hmoved.settles_condition hl hc hr ((prefix_grow _ _).trans hfinal) hnext
    (by simp) .parenAfterWhile).1.compiles hcondition
  have hinside := hmoved.same htest
  have hsize : (b.advance.condition (expression depth) .parenAfterWhile).1.chunk.size =
      b.chunk.size + (codeSize (condition.code q.final q.scope) + 4) := by
    rw [htest.wrote.size, hadvance.wrote.size]
    simp [Item.size]
  cases hvisits with
  | whileBody _ h =>
      refine Started.shift ?_ hsize
      refine hbody q depth (level + 1) _ y u rest hinside (htest.pool.symm ▸ hfinal)
        (htest.upcoming (by rw [hnext]; simp)) helse ?_ h
      rw [htest.pool]
      exact hbodyFits
  | block hkind _ | thenBranch hkind _ | elseBranch hkind _ _ _ _ _ | forStart hkind _ _
  | forBody hkind _ =>
      rw [hcurrent, hw] at hkind
      cases hkind

theorem stmtVisited_block {l r : Token} {body : Stmt} {ts : List Token} (hl : l.kind = .leftBrace)
    (hbody : ChainVisited body ts) (hr : r.kind = .rightBrace) :
    StmtVisited (.block body) (l :: ts ++ [r]) := by
  refine StmtVisited.of_within fun q depth level b y u rest hb hfinal hahead _ hfits hvisits => ?_
  have hahead' : b.upcoming = l :: (ts ++ r :: u :: rest) := by simpa using hahead
  obtain ⟨hcurrent, hadvance, hmoved, hpool, hnext⟩ := hb.word hahead' (by simp)
  have hinside := hmoved.opened
  have hsize : b.advance.beginScope.chunk.size = b.chunk.size := hadvance.wrote.size
  cases hvisits with
  | block _ h =>
      have hstarted := hbody q.opened depth (level + 1) b.advance.beginScope y r (u :: rest) _ _ _
        hinside
        (by
          rw [q.top_opened, q.scope_opened]
          exact hpool.symm ▸ hfinal)
        hnext repeats_block (by simp [hr])
        (by
          rw [Place.Fits, q.top_opened, q.scope_opened]
          exact hpool.symm ▸ Stmt.fits_block.mp hfits)
        h
      rw [q.top_opened, q.scope_opened] at hstarted
      exact hstarted.of_size hsize
  | thenBranch hkind _ | elseBranch hkind _ _ _ _ _ | whileBody hkind _ | forStart hkind _ _
  | forBody hkind _ =>
      rw [hcurrent, hl] at hkind
      cases hkind

theorem stmtVisited_if {i l r : Token} {condition : Expr} {yes no : Stmt} {ts us vs : List Token}
    (hi : i.kind = .ifWord) (hl : l.kind = .leftParen) (hc : WholeExpr condition ts)
    (hr : r.kind = .rightParen) (hyes : StmtSettled yes us) (hyesVisited : StmtVisited yes us)
    (hno : ∀ v more, vs = v :: more → StmtVisited no more)
    (hopen : ∀ v more, vs = v :: more → yes.takesElse = true → v.kind ≠ .elseWord)
    (hskip : vs = [] → no = .skip) :
    StmtVisited (.branch condition yes no) (i :: l :: ts ++ r :: us ++ vs) := by
  refine StmtVisited.of_within
    fun q depth level b y u rest hb hfinal hahead helse hfits hvisits => ?_
  have hahead' : b.upcoming = i :: (l :: ts ++ r :: (us ++ (vs ++ u :: rest))) := by
    simpa using hahead
  obtain ⟨hcurrent, hadvance, hmoved, hpool, hnext⟩ := hb.word hahead' (by simp)
  obtain ⟨hcondition, hyesFits, hthenFits, hnoFits, -⟩ := Stmt.fits_branch.mp hfits
  simp only [Stmt.constants, grow_append] at hfinal
  rw [← hpool] at hfinal hcondition hyesFits hnoFits
  obtain ⟨v, more, hv, hclosed⟩ : ∃ v more, vs ++ u :: rest = v :: more ∧
      (yes.takesElse = true → v.kind ≠ .elseWord) := by
    cases vs with
    | nil => exact ⟨u, rest, rfl, fun _ => helse (takesElse_branch _ _ (Or.inl (hskip rfl)))⟩
    | cons v more => exact ⟨v, more ++ u :: rest, rfl, hopen v more rfl⟩
  obtain ⟨htest, hthen⟩ := hmoved.settles_condition hl hc hr
    ((prefix_grow _ _).trans ((prefix_grow _ _).trans hfinal)) hnext (by simp) .parenAfterIf
  have hbehind : b.advance.upcoming = l :: ts ++ [r] ++ (us ++ v :: more) := by
    rw [hnext, hv]
    simp
  have htested := htest.compiles hcondition
  cases hvisits with
  | thenBranch _ h =>
      have hsize : (b.advance.condition (expression depth) .parenAfterIf).1.chunk.size =
          b.chunk.size + (codeSize (condition.code q.final q.scope) + 4) := by
        rw [htested.wrote.size, hadvance.wrote.size]
        simp [Item.size]
      refine (Started.shift ?_ hsize).mono fun start hmem => List.mem_append_left _ hmem
      refine hyesVisited q depth (level + 1) _ y v more (hmoved.same htested)
        (htested.pool.symm ▸ (prefix_grow _ _).trans hfinal) (htested.upcoming hbehind) hclosed ?_ h
      rw [htested.pool]
      exact hyesFits
  | @elseBranch _ _ b₁ b₂ b₃ _ thenJump elseJump _ hfirst hsecond hother hsees h =>
      rw [hfirst] at htest hthen
      have hrun := hyes.settles hmoved htest ((prefix_grow _ _).trans hfinal) hbehind hclosed
      rw [hsecond] at hrun
      have hshape :
          condition.code q.final q.scope ++ [.jump .jumpIfFalse distanceMax, .plain .pop] ++
              yes.code q.final q.top q.scope =
            condition.code q.final q.scope ++ .jump .jumpIfFalse distanceMax ::
              (.plain .pop :: yes.code q.final q.top q.scope) := by
        simp
      rw [hshape] at hrun
      have hsettled := (Located.settles_otherwise hmoved.ready hrun fun hboth => hthen hboth.1).1
      rw [hother] at hsettled
      have hpassed := hsettled.compiles ⟨⟨hcondition, hyesFits⟩, by
        simp only [codeSize_cons, Item.size]
        omega⟩
      have hupcoming : b₃.upcoming = vs ++ u :: rest := hpassed.upcoming (by
        rw [hnext]
        simp)
      have hthere := hmoved.same hpassed
      have hpool₃ := hpassed.pool
      rw [grow_append] at hpool₃
      cases vs with
      | nil =>
          have hlast : b₃.current = u := List.head_eq_of_cons_eq hupcoming
          refine absurd (of_decide_eq_true hsees) ?_
          rw [hlast]
          exact helse (takesElse_branch _ _ (Or.inl (hskip rfl)))
      | cons v' more' =>
          obtain ⟨-, hskipped, hinside, hpool₄, hupcoming'⟩ := hthere.word hupcoming (by simp)
          have hsize :
              b₃.advance.chunk.size = b.chunk.size + (codeSize (condition.code q.final q.scope) +
                codeSize (yes.code q.final q.top q.scope) + 8) := by
            rw [hskipped.wrote.size, hpassed.wrote.size, hadvance.wrote.size]
            simp only [codeSize_append, codeSize_cons, codeSize_nil, Item.size]
            omega
          refine (Started.shift ?_ hsize).mono fun start hmem => List.mem_append_right _ hmem
          refine hno v' more' rfl q depth (level + 1) _ y u rest hinside ?_ hupcoming'
            (fun htakes => helse (takesElse_branch _ _ (Or.inr htakes))) ?_ h
          · rw [hpool₄, hpool₃]
            exact hfinal
          · rw [hpool₄, hpool₃]
            exact hnoFits
  | block hkind _ | whileBody hkind _ | forStart hkind _ _ | forBody hkind _ =>
      rw [hcurrent, hi] at hkind
      cases hkind

/-- All that stands before the body of a `for`, when the statement fits. -/
theorem Located.compiles_forClauses {q : Place} {depth level : Nat} {b : Builder}
    (hb : Located q depth level b) {l semi r : Token} {first : Stmt}
    {condition increment : Option Expr} {ts us vs rest : List Token} (hl : l.kind = .leftParen)
    (hfirst : ForStartTokens first ts) (hc : OptionalExpr condition us)
    (hsemi : semi.kind = .semicolon) (hi : OptionalExpr increment vs) (hr : r.kind = .rightParen)
    (hahead : b.upcoming = l :: (ts ++ (us ++ semi :: (vs ++ r :: rest)))) (hmore : rest ≠ []) :
    let inner := first.scopeAfter false q.scope
    let pool₁ := grow b.pool (first.constants false q.scope)
    let pool₂ := grow pool₁ (optionalConstants inner condition)
    let pool₃ := grow pool₂ (optionalConstants inner increment)
    let test := condition.map (Expr.code q.final inner)
    let step := incrementCode (conditionSize test) (increment.map (Expr.code q.final inner))
    pool₃ <+: q.final → first.ClauseFits level b.pool q.final q.scope →
      OptionalFits level pool₁ q.final [] inner condition →
      OptionalFits level pool₂ q.final [] inner increment → step.all Item.fits = true →
      let b' := (b.beginScope.forClauses (expression depth)).1
      Located (q.opened.after first) depth level b' ∧ b'.pool = pool₃ ∧ b'.upcoming = rest ∧
        b'.chunk.size = b.chunk.size +
          (codeSize (first.code q.final false q.scope) + conditionSize test + codeSize step) := by
  intro inner pool₁ pool₂ pool₃ test step hfinal hfirstFits hconditionFits hincrementFits hstepFits
  unfold forClauses
  dsimp only
  have hopened := hb.opened
  have hahead' : b.beginScope.upcoming = l :: (ts ++ (us ++ semi :: (vs ++ r :: rest))) := hahead
  have hopen := hopened.ready.compiles_expect hahead' (by simp) hl .parenAfterFor
  rw [hopened.locals] at hopen
  have hinside := hopened.same hopen
  have hpool : (b.beginScope.expect .leftParen .parenAfterFor).pool = b.pool := hopen.pool
  have hsize : (b.beginScope.expect .leftParen .parenAfterFor).chunk.size = b.chunk.size :=
    hopen.wrote.size
  have hupcoming := hopen.upcoming hahead'
  generalize b.beginScope.expect .leftParen .parenAfterFor = b₁ at *
  have hstart := hinside.settles_forStart q.top_opened rfl hfirst
    (by
      rw [hpool, q.scope_opened]
      exact (prefix_grow _ _).trans ((prefix_grow _ _).trans hfinal))
    hupcoming (by simp)
  rw [hpool, q.scope_opened] at hstart
  have hstarted := hstart.compiles hfirstFits
  have hafter : (q.opened.after first).scope = inner := by
    rw [q.opened.scope_after, q.top_opened, q.scope_opened]
  have hplace : (q.opened.after first).final = q.final := q.opened.final_after first
  have hlooped := hinside.after hstarted (by
    rw [hafter]
    exact (first.length_scopeAfter_le false q.scope).trans hfirstFits.2.locals)
  have hpool₁ := hstarted.pool
  rw [hpool] at hpool₁
  have hsize₁ := hstarted.wrote.size
  have hupcoming₁ := hstarted.upcoming hupcoming
  generalize b₁.forStart (expression depth) = b₂ at *
  obtain ⟨htest, -⟩ := hlooped.settles_forCondition hc hsemi
    (by
      rw [hpool₁, hafter, hplace]
      exact (prefix_grow _ _).trans hfinal)
    hupcoming₁ (by simp)
  obtain ⟨hstep, -⟩ := hlooped.settles_forIncrement htest hi hr
    (by
      rw [hpool₁, hafter, hplace]
      exact hfinal)
    (by simpa using hupcoming₁) hmore
  rw [codeSize_testCode, hpool₁, hafter, hplace] at hstep
  have hbefore := hstep.compiles ⟨hconditionFits, hincrementFits, hstepFits⟩
  have hpool₃ := hbefore.pool
  rw [hpool₁, grow_append] at hpool₃
  refine ⟨hlooped.same hbefore, hpool₃, hbefore.upcoming (by rw [hupcoming₁]; simp), ?_⟩
  rw [hbefore.wrote.size, hsize₁, hsize, codeSize_append, codeSize_testCode, Nat.add_assoc,
    ← Nat.add_assoc (codeSize _)]
  rfl

theorem stmtVisited_for {f l semi r : Token} {first body : Stmt} {condition increment : Option Expr}
    {ts us vs ws : List Token} (hf : f.kind = .forWord) (hl : l.kind = .leftParen)
    (hfirst : ForStartTokens first ts) (hc : OptionalExpr condition us)
    (hsemi : semi.kind = .semicolon) (hi : OptionalExpr increment vs) (hr : r.kind = .rightParen)
    (hbody : StmtVisited body ws) :
    StmtVisited (.forLoop first condition increment body)
      (f :: l :: ts ++ us ++ semi :: vs ++ r :: ws) := by
  refine StmtVisited.of_within
    fun q depth level b y u rest hb hfinal hahead helse hfits hvisits => ?_
  have hahead' : b.upcoming =
      f :: l :: (ts ++ (us ++ semi :: (vs ++ r :: (ws ++ u :: rest)))) := by simpa using hahead
  obtain ⟨hcurrent, hadvance, hmoved, hpool, hnext⟩ := hb.word hahead' (by simp)
  have hsize : b.advance.chunk.size = b.chunk.size := hadvance.wrote.size
  cases hvisits with
  | forStart _ hsees _ =>
      subst hsees
      have hopened := hmoved.opened
      have hopen := hopened.ready.compiles_expect (b := b.advance.beginScope) hnext (by simp) hl
        .parenAfterFor
      refine ⟨(0, q.scope.length), List.mem_cons_self .., hopen.wrote.size.trans hsize, ?_⟩
      rw [hopen.locals, hopened.locals, Place.length_locals, q.scope_opened]
  | forBody _ h =>
      obtain ⟨hfirstFits, hconditionFits, hincrementFits, hbodyFits, -, -⟩ := Stmt.fits_for.mp hfits
      simp only [Stmt.constants, grow_append] at hfinal
      rw [← hpool] at hfinal hfirstFits hconditionFits hincrementFits hbodyFits
      obtain ⟨hlooped, hbodyPool, hupcoming, hbodySize⟩ := hmoved.compiles_forClauses hl hfirst hc
        hsemi hi hr hnext (by simp) ((prefix_grow _ _).trans hfinal) hfirstFits hconditionFits
        hincrementFits.1 hincrementFits.2
      rw [hsize] at hbodySize
      have hafter : (q.opened.after first).scope = first.scopeAfter false q.scope := by
        rw [q.opened.scope_after, q.top_opened, q.scope_opened]
      have hhere : (q.opened.after first).here = first.declared [] := by
        rw [q.opened.after_local q.top_opened]
        rfl
      have hlocal : (q.opened.after first).top = false := by simp [q.top_opened]
      have hplace : (q.opened.after first).final = q.final := q.opened.final_after first
      have hvisited := hbody (q.opened.after first) depth (level + 1) _ y u rest hlooped
        (by
          rw [hlocal, hafter, hplace, hbodyPool]
          exact hfinal)
        hupcoming helse
        (by
          rw [Place.Fits, hlocal, hafter, hhere, hplace, hbodyPool]
          exact hbodyFits) h
      rw [hlocal, hafter, hplace] at hvisited
      exact (hvisited.shift hbodySize).mono fun start hmem =>
        List.mem_cons_of_mem _ (List.mem_append_right _ hmem)
  | block hkind _ | thenBranch hkind _ | elseBranch hkind _ _ _ _ _ | whileBody hkind _ =>
      rw [hcurrent, hf] at hkind
      cases hkind

theorem chainVisited_skip : ChainVisited .skip [] := by
  intro q depth level b y u rest bound stop more hb _ hahead hrepeats hstop _ hvisits
  have hcurrent : b.current = u := List.head_eq_of_cons_eq hahead
  have hends : more b = false := by simp [hrepeats.more, hcurrent, hstop]
  cases hvisits with
  | here hmore | inside hmore _ _ | later hmore _ =>
      rw [hends] at hmore
      cases hmore

theorem chainVisited_seq {first rest : Stmt} {ts us : List Token}
    (hfirst : VarTokens first ts ∨
      StmtTokens first ts ∧ StmtSettled first ts ∧ StmtVisited first ts)
    (hrest : ChainVisited rest us)
    (hnext : us = [] ∨ ∃ t more, us = t :: more ∧ t.kind ≠ .elseWord) :
    ChainVisited (.seq first rest) (ts ++ us) := by
  intro q depth level b y u behind bound stop more hb hfinal hahead hrepeats hstop hfits hvisits
  simp only [Stmt.constants, grow_append] at hfinal
  obtain ⟨hfirstFits, hrestFits⟩ := Stmt.fits_seq.mp hfits
  obtain ⟨v, rest', hv, hother⟩ :
      ∃ v rest', us ++ u :: behind = v :: rest' ∧ v.kind ≠ .elseWord := by
    rcases hnext with rfl | ⟨t, rest', rfl, ht⟩
    · refine ⟨u, behind, rfl, fun hkind => ?_⟩
      rw [hkind, hrepeats.other] at hstop
      cases hstop
    · exact ⟨t, rest' ++ u :: behind, rfl, ht⟩
  have hahead' : b.upcoming = ts ++ v :: rest' := by rw [hahead, ← hv, List.append_assoc]
  have hfinal' := (prefix_grow _ _).trans hfinal
  cases hvisits with
  | here _ =>
      refine ⟨(0, q.scope.length), List.mem_cons_self .., rfl, ?_⟩
      rw [hb.locals, Place.length_locals]
  | inside _ hvar h =>
      rcases hfirst with hdeclares | ⟨-, -, hvisited⟩
      · obtain ⟨t, more, rfl, ht⟩ := hdeclares.exists_start
        have hcurrent : b.current = t := List.head_eq_of_cons_eq hahead'
        simp [sees, hcurrent, ht] at hvar
      · have hstarted := hvisited q depth level b y v rest' hb hfinal' hahead' (fun _ => hother)
          hfirstFits h
        exact hstarted.mono fun start hmem =>
          List.mem_cons_of_mem _ (List.mem_append_left _ hmem)
  | later _ h =>
      have hstep : b.Settles (q.Fits level b.pool first) ts (first.constants q.top q.scope)
          (first.code q.final q.top q.scope) (q.after first).locals
          (declaration (statement depth) (expression depth) b) := by
        rcases hfirst with hdeclares | ⟨htokens, hsettled, -⟩
        · exact settles_declaration_var hb hdeclares hfinal' hahead'
        · exact settles_declaration_statement hb htokens hsettled hfinal' hahead' hother
      have hcompiles := hstep.compiles hfirstFits
      have hlocated := hb.after hcompiles (by
        rw [q.scope_after]
        exact (first.length_scopeAfter_le q.top q.scope).trans hfirstFits.2.locals)
      have hstarted := hrest (q.after first) depth level _ y u behind _ stop more hlocated
        (by rw [q.top_after, q.scope_after, q.final_after, hcompiles.pool]; exact hfinal)
        (hcompiles.upcoming (by rw [hahead, List.append_assoc])) hrepeats hstop
        (by
          rw [q.fits_after, hcompiles.pool]
          exact hrestFits) h
      rw [q.top_after, q.scope_after, q.final_after] at hstarted
      exact (hstarted.shift hcompiles.wrote.size).mono fun start hmem =>
        List.mem_cons_of_mem _ (List.mem_append_right _ hmem)

/-- Wherever the compiler comes to a declaration in a statement or a chain of the grammar,
the declaration starts as it should. -/
theorem visited_of_tokens (s : Stmt) : (∀ ts, StmtTokens s ts → StmtVisited s ts) ∧
    ∀ ts, DeclTokens s ts → ChainVisited s ts := by
  induction s with
  | skip =>
      refine ⟨fun ts h => (nomatch h), fun ts h => ?_⟩
      cases h
      exact chainVisited_skip
  | var x value => exact ⟨fun ts h => (nomatch h), fun ts h => nomatch h⟩
  | seq first rest ihf ihr =>
      refine ⟨fun ts h => (nomatch h), fun ts h => ?_⟩
      cases h with
      | var hfirst hrest =>
          exact chainVisited_seq (Or.inl hfirst) (ihr.2 _ hrest) hrest.starts
      | statement hfirst hrest =>
          have hsettled := (settled_of_tokens first).1 _ hfirst
          exact chainVisited_seq (Or.inr ⟨hfirst, hsettled, ihf.1 _ hfirst⟩) (ihr.2 _ hrest)
            hrest.starts
  | print e =>
      refine ⟨fun ts h => ?_, fun ts h => nomatch h⟩
      cases h with
      | print hp _ _ => exact stmtVisited_print hp
  | expression e =>
      refine ⟨fun ts h => ?_, fun ts h => nomatch h⟩
      cases h with
      | expression he _ => exact stmtVisited_expression he
  | block body ih =>
      refine ⟨fun ts h => ?_, fun ts h => nomatch h⟩
      cases h with
      | block hl hbody hr => exact stmtVisited_block hl (ih.2 _ hbody) hr
  | branch condition yes no ihy ihn =>
      refine ⟨fun ts h => ?_, fun ts h => nomatch h⟩
      cases h with
      | ifOnly hi hl hc hr hyes =>
          have hsettled := (settled_of_tokens yes).1 _ hyes
          have hnone : ∀ v more, ([] : List Token) = v :: more → StmtVisited .skip more :=
            fun _ _ hnil => nomatch hnil
          have hvisited := stmtVisited_if hi hl hc hr hsettled (ihy.1 _ hyes) hnone
            (fun _ _ hnil => nomatch hnil) (fun _ => rfl)
          rwa [List.append_nil] at hvisited
      | ifElse hi hl hc hr hyes hopen he hno =>
          have hsettled := (settled_of_tokens yes).1 _ hyes
          refine stmtVisited_if hi hl hc hr hsettled (ihy.1 _ hyes) ?_ ?_ (fun hnil => nomatch hnil)
          · intro v more hmore
            obtain ⟨-, rfl⟩ := List.cons.inj hmore
            exact ihn.1 _ hno
          · intro v more _ htakes
            rw [hopen] at htakes
            cases htakes
  | whileLoop condition body ih =>
      refine ⟨fun ts h => ?_, fun ts h => nomatch h⟩
      cases h with
      | whileLoop hw hl hc hr hbody => exact stmtVisited_while hw hl hc hr (ih.1 _ hbody)
  | forLoop first condition increment body _ ih =>
      refine ⟨fun ts h => ?_, fun ts h => nomatch h⟩
      cases h with
      | forLoop hf hl hfirst hc hsemi hi hr hbody =>
          exact stmtVisited_for hf hl hfirst hc hsemi hi hr (ih.1 _ hbody)

/-- The declarations of an admissible program start as they should. -/
theorem started_of_visits {tree : Stmt} {tokens : List Token} (h : ProgramTokens tree tokens)
    (hspelled : ∀ t ∈ tokens, t.WellSpelled) (hadmissible : tree.admissible = true) {y : Builder}
    (hvisits : VisitsDeclaration tokens y) :
    ∃ start ∈ tree.starts tree.pool true [], y.chunk.size = start.1 ∧
      y.locals.length = start.2 := by
  have hsound := h.sound
  obtain ⟨ts, last, hdecls, hlast, htokens⟩ := h
  obtain ⟨hlocated, hupcoming, hchunk⟩ := located_atStart tree.pool
    (show tokens ≠ [] by simp [htokens]) fun t ht => ⟨hsound t ht, hspelled t ht⟩
  have hpool : (atStart tokens).pool = [] := by rw [Builder.pool, hchunk]
  have hahead : (atStart tokens).upcoming = ts ++ last :: [] := hupcoming.trans htokens
  have hfits := fits_topPlace.mpr hadmissible
  rw [← hpool] at hfits
  obtain ⟨start, hmem, hsize, hlocals⟩ := (visited_of_tokens tree).2 ts hdecls (topPlace tree.pool)
    (nestingMax + 1) 0 (atStart tokens) y last [] (atStart tokens).unread _ _ hlocated
    (by rw [hpool]; exact List.prefix_rfl) hahead repeats_program (decide_eq_true hlast) hfits
      hvisits
  refine ⟨start, hmem, ?_, hlocals⟩
  rw [hsize, hchunk]
  exact Nat.zero_add _

end StackScript.Builder
