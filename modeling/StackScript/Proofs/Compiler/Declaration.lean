import StackScript.Proofs.Compiler.Place

/-!
Variable declarations of the grammar are compiled to the code of their trees, or reported
when they do not fit. At the top level the name becomes a constant before the initial
value is read; in a scope it becomes a local that the initial value cannot mention.
-/

namespace StackScript.Builder

open Tree TokenKind

/-- The tokens of an initial value, with the sign before it. -/
inductive ValueTokens : Option Expr → List Token → Prop
  | none : ValueTokens none []
  | some {eq : Token} {e : Expr} {ts : List Token} (heq : eq.kind = .assign)
      (he : WholeExpr e ts) : ValueTokens (some e) (eq :: ts)

theorem exists_of_varTokens {s : Stmt} {ts : List Token} (h : VarTokens s ts) :
    ∃ v t semi x value us, s = .var x value ∧ ts = v :: t :: (us ++ [semi]) ∧
      v.kind = .varWord ∧ Spelled t .identifier x ∧ semi.kind = .semicolon ∧
      ValueTokens value us := by
  cases h with
  | bare hv ht hsemi => exact ⟨_, _, _, _, _, [], rfl, rfl, hv, ht, hsemi, .none⟩
  | withValue hv ht heq he hsemi =>
      exact ⟨_, _, _, _, _, _, rfl, rfl, hv, ht, hsemi, .some heq he⟩

theorem below_semicolon (n : Nat) : TokenKind.semicolon.Below n := fun _ hj => nomatch hj

theorem below_rightParen (n : Nat) : TokenKind.rightParen.Below n := fun _ hj => nomatch hj

/-- An initial value, or `nil` where there is none. -/
theorem Placed.settles_value {s : Spot} {b : Builder} (hplaced : Placed s b) {value : Option Expr}
    {ts rest : List Token} {semi : Token} (h : ValueTokens value ts)
    (hfinal : grow b.pool (optionalConstants s.scope value) <+: s.final)
    (hahead : b.upcoming = ts ++ semi :: rest) (hsemi : semi.kind = .semicolon) :
    b.Settles (OptionalFits s.level b.pool s.final s.pending s.scope value) ts
      (optionalConstants s.scope value) ((value.getD .nil).code s.final s.scope) b.locals
      (if b.sees .assign then expression s.depth b.advance else b.emit .pushNil) := by
  cases h with
  | none =>
      have hcurrent : b.current = semi := List.head_eq_of_cons_eq hahead
      have hsees : b.sees .assign = false := by simp [sees, hcurrent, hsemi]
      rw [if_neg (Bool.eq_false_iff.mp hsees)]
      exact Or.inl ⟨trivial, hplaced.ready.compiles_emit .pushNil⟩
  | @some eq e ts heq he =>
      have hahead' : b.upcoming = eq :: (ts ++ semi :: rest) := hahead
      obtain ⟨hcurrent, hadvance, hmoved, hlocals, hpool⟩ := hplaced.first hahead' (by simp)
      have hsees : b.sees .assign = true := by simp [sees, hcurrent, heq]
      rw [if_pos hsees]
      have hexpr := hmoved.settles_expression he (hpool.symm ▸ hfinal) (hadvance.upcoming hahead')
        (hsemi ▸ below_semicolon _) (by rw [hsemi]; decide)
      rw [hpool, hlocals] at hexpr
      exact hadvance.settles hexpr

namespace Located

variable {q : Place} {depth level : Nat} {b : Builder}

theorem compiles_name (hb : Located q depth level b) {t : Token} {x : String} {rest : List Token}
    (hahead : b.upcoming = t :: rest) (hmore : rest ≠ []) (ht : Spelled t .identifier x) :
    b.Compiles [t] [] [] q.locals (b.expect .identifier .variableName) ∧
      (b.expect .identifier .variableName).previous.lexeme = x := by
  have hexpect := hb.ready.compiles_expect hahead hmore ht.1 .variableName
  rw [hb.locals] at hexpect
  refine ⟨hexpect, ?_⟩
  have hcurrent : b.current = t := List.head_eq_of_cons_eq hahead
  rw [expect_of_sees (by simp [sees, hcurrent, ht.1]), previous_advance, hcurrent, ht.2]

/-- At the top level a name is put into the pool. -/
theorem settles_readVariable_top (hb : Located q depth level b) (htop : q.top = true) {t : Token}
    {x : String} {rest : List Token} (hahead : b.upcoming = t :: rest) (hmore : rest ≠ [])
    (ht : Spelled t .identifier x) (hfinal : grow b.pool [.string x] <+: q.final) :
    b.Settles ((grow b.pool [.string x]).length ≤ Chunk.constantsMax) [t] [.string x] [] q.locals
        b.readVariable.1 ∧
      (¬ b.readVariable.1.Soiled → b.readVariable.2 = indexIn q.final (.string x)) := by
  obtain ⟨hname, hlexeme⟩ := hb.compiles_name hahead hmore ht
  have hscopes : q.scopes = 0 := of_decide_eq_true htop
  have hdepth : (b.expect .identifier .variableName).scopeDepth = 0 := by
    rw [hname.depth, hb.scopes, hscopes]
  have hread : b.readVariable =
      (b.expect .identifier .variableName).makeConstant (.string x) := by
    unfold readVariable
    have hdeclare : (b.expect .identifier .variableName).declareVariable =
        b.expect .identifier .variableName := if_pos hdepth
    simp only [hdeclare, hdepth, Nat.lt_irrefl, if_false, hlexeme, nameConstant]
  have hready := hname.ready hb.ready
  have hpool : (b.expect .identifier .variableName).pool = b.pool := hname.pool
  rw [hread]
  rw [← hpool] at hfinal ⊢
  by_cases hroom : (grow (b.expect .identifier .variableName).pool [.string x]).length ≤
      Chunk.constantsMax
  · obtain ⟨hcompiles, hindex⟩ := hready.makeConstant_of_room hroom hfinal
    rw [hname.locals] at hcompiles
    exact ⟨Or.inl ⟨hroom, hname.trans hcompiles⟩, fun _ => hindex⟩
  · have hsoiled := hready.makeConstant_of_full hroom
    exact ⟨Or.inr ⟨hroom, hsoiled⟩, absurd hsoiled⟩

theorem declaredHere_iff {b' : Builder} (hb : Located q depth level b)
    (hlocals : b'.locals = q.locals) (hdepth : b'.scopeDepth = q.scopes) (x : String) :
    b'.declaredHere x = true ↔ x ∈ q.here := by
  have houter : q.outer.takeWhile (fun entry => entry.depth.all (q.scopes ≤ ·)) = [] := by
    cases hcase : q.outer with
    | nil => rfl
    | cons entry rest =>
        obtain ⟨d, hd, hentry⟩ := hb.enclosing entry (hcase ▸ List.mem_cons_self ..)
        rw [List.takeWhile_cons_of_neg]
        simp [hentry, hd]
  have hhere : ∀ entry ∈ q.here.map (fun x => (⟨x, some q.scopes⟩ : Local)),
      entry.depth.all (q.scopes ≤ ·) = true := by
    intro entry hentry
    obtain ⟨y, -, rfl⟩ := List.mem_map.mp hentry
    simp
  unfold declaredHere
  rw [hlocals, hdepth, Place.locals, List.takeWhile_append_of_pos hhere, houter, List.append_nil]
  simp

theorem settles_declareVariable {b' : Builder} (hb : Located q depth level b) (htop : q.top = false)
    {t : Token} {x : String} (hname : b.Compiles [t] [] [] q.locals b')
    (hlexeme : b'.previous.lexeme = x) :
    b.Settles (x ∉ q.here ∧ q.scope.length < localsMax) [t] [] [] (⟨x, none⟩ :: q.locals)
      b'.declareVariable := by
  have hready := hname.ready hb.ready
  have hdepth : b'.scopeDepth = q.scopes := hname.depth.trans hb.scopes
  have hinside : b'.scopeDepth ≠ 0 := hdepth ▸ of_decide_eq_false htop
  have hdeclared := hb.declaredHere_iff hname.locals hdepth x
  unfold declareVariable
  rw [if_neg hinside, hlexeme]
  dsimp only
  by_cases hx : x ∈ q.here
  · rw [if_pos (hdeclared.mpr hx)]
    refine Or.inr ⟨fun h => h.1 hx, ?_⟩
    exact closed_soiled.addLocal _ _ (hready.clean.soiled_errorAtPrevious _)
  · rw [if_neg (mt hdeclared.mp hx)]
    have hlength : b'.locals.length = q.scope.length := by rw [hname.locals, q.length_locals]
    unfold addLocal
    by_cases hfull : b'.locals.length = localsMax
    · rw [if_pos hfull]
      refine Or.inr ⟨fun h => ?_, hready.clean.soiled_errorAtPrevious _⟩
      exact absurd h.2 (by rw [← hlength, hfull]; decide)
    · rw [if_neg hfull]
      have hroom : q.scope.length < localsMax := lt_of_le_of_ne hb.few (hlength ▸ hfull)
      refine Or.inl ⟨⟨hx, hroom⟩, ⟨⟨hready.clean.errors, hready.clean.calm⟩, hname.took.upcoming,
        hname.took.previous, hname.took.nesting⟩, hname.pool, hname.room, hname.wrote, ?_,
        hname.depth⟩
      rw [hname.locals]

/-- In a scope a name is added to the locals, but cannot be read yet. -/
theorem settles_readVariable_local (hb : Located q depth level b) (htop : q.top = false) {t : Token}
    {x : String} {rest : List Token} (hahead : b.upcoming = t :: rest) (hmore : rest ≠ [])
    (ht : Spelled t .identifier x) :
    b.Settles (x ∉ q.here ∧ q.scope.length < localsMax) [t] [] [] (⟨x, none⟩ :: q.locals)
        b.readVariable.1 := by
  obtain ⟨hname, hlexeme⟩ := hb.compiles_name hahead hmore ht
  have hready := hname.ready hb.ready
  have hsame : 0 < (b.expect .identifier .variableName).declareVariable.scopeDepth →
      b.readVariable.1 = (b.expect .identifier .variableName).declareVariable := by
    intro hinside
    simp only [readVariable, if_pos hinside]
  have hkeeps : (b.expect .identifier .variableName).declareVariable.Soiled →
      b.readVariable.1.Soiled := by
    intro hsoiled
    simp only [readVariable]
    split
    · exact hsoiled
    · exact closed_soiled.makeConstant _ _ hsoiled
  refine ((hb.settles_declareVariable htop hname hlexeme).andThen hkeeps fun hcompiles => ?_)
  have hdepth : (b.expect .identifier .variableName).declareVariable.scopeDepth = q.scopes :=
    hcompiles.depth.trans hb.scopes
  have hinside : 0 < q.scopes := Nat.pos_of_ne_zero (of_decide_eq_false htop)
  rw [hsame (hdepth ▸ hinside)]
  exact hcompiles

/-- What stands behind the name of a variable. -/
theorem soiled_defined {b : Builder} (depth : Nat) (name : UInt8) (h : b.Soiled) :
    (((if b.sees .assign then expression depth b.advance else b.emit .pushNil).expect .semicolon
      .semicolonAfterDeclaration).defineVariable name).Soiled := by
  refine closed_soiled.defineVariable _ _ (closed_soiled.expect _ _ _ ?_)
  split
  · exact closed_soiled.expression depth _ (closed_soiled.advance _ h)
  · exact closed_soiled.emit _ _ h

/-- The initial value of a variable and the semicolon behind it. -/
theorem settles_initial {q : Place} {b : Builder} {pending : List String}
    (hplaced : Placed (q.spot depth level pending) b) {value : Option Expr} {ts rest : List Token}
    {semi : Token} (h : ValueTokens value ts) (hsemi : semi.kind = .semicolon)
    (hfinal : grow b.pool (optionalConstants q.scope value) <+: q.final)
    (hahead : b.upcoming = ts ++ semi :: rest) (hmore : rest ≠ []) :
    b.Settles (OptionalFits level b.pool q.final pending q.scope value) (ts ++ [semi])
      (optionalConstants q.scope value) ((value.getD .nil).code q.final q.scope) b.locals
      ((if b.sees .assign then expression depth b.advance else b.emit .pushNil).expect .semicolon
        .semicolonAfterDeclaration) := by
  have hvalue := hplaced.settles_value h hfinal hahead hsemi
  have hclosed := hvalue.andThen (closed_soiled.expect _ .semicolon .semicolonAfterDeclaration)
    fun hcompiles => by
      have hexpect := (hcompiles.ready hplaced.ready).compiles_expect (hcompiles.upcoming hahead)
        hmore hsemi .semicolonAfterDeclaration
      rw [hcompiles.locals] at hexpect
      exact hcompiles.trans hexpect
  rw [List.append_nil, List.append_nil] at hclosed
  exact hclosed

theorem compiles_defineVariable_top (hb : Located q depth level b) (htop : q.top = true)
    (index : UInt8) :
    b.Compiles [] [] [.operand .defineGlobal index] q.locals (b.defineVariable index) := by
  have houtside : ¬ 0 < b.scopeDepth := by
    rw [hb.scopes, of_decide_eq_true htop]
    exact Nat.lt_irrefl 0
  unfold defineVariable
  rw [if_neg houtside, ← hb.locals]
  exact hb.ready.compiles_emitWithByte .defineGlobal index

/-- From its definition on a local can be read. -/
theorem compiles_defineVariable_local {x : String} {entries : List Local} (hb : b.Ready)
    (hlocals : b.locals = ⟨x, none⟩ :: entries) (hscopes : 0 < b.scopeDepth) (index : UInt8) :
    b.Compiles [] [] [] (⟨x, some b.scopeDepth⟩ :: entries) (b.defineVariable index) := by
  unfold defineVariable markInitialized
  rw [if_pos hscopes, hlocals]
  exact ⟨⟨⟨hb.clean.errors, hb.clean.calm⟩, rfl, rfl, rfl⟩, rfl, hb.room, Chunk.Wrote.nil _, rfl,
    rfl⟩

theorem settles_varDeclaration (hb : Located q depth level b) {s : Stmt} {ts rest : List Token}
    (h : VarTokens s ts) (hfinal : grow b.pool (s.constants q.top q.scope) <+: q.final)
    (hahead : b.upcoming = ts ++ rest) (hmore : rest ≠ []) :
    b.Settles (q.Fits level b.pool s) ts (s.constants q.top q.scope) (s.code q.final q.top q.scope)
      (q.after s).locals (b.advance.varDeclaration (expression depth)) := by
  obtain ⟨v, t, semi, x, value, us, rfl, rfl, hv, ht, hsemi, hvalue⟩ := exists_of_varTokens h
  have hahead' : b.upcoming = v :: t :: (us ++ semi :: rest) := by simpa using hahead
  have hadvance := hb.ready.compiles_advance hahead' (by simp)
  rw [hb.locals] at hadvance
  have hmoved := hb.same hadvance
  have hpool : b.advance.pool = b.pool := hadvance.pool
  have hnext := hadvance.upcoming hahead'
  refine hadvance.settles ?_
  unfold varDeclaration
  dsimp only
  cases htop : q.top with
  | true =>
      simp only [Stmt.constants, htop, if_true, grow_append] at hfinal
      obtain ⟨hname, hindex⟩ := hmoved.settles_readVariable_top htop hnext (by simp) ht
        (hpool.symm ▸ (prefix_grow _ _).trans hfinal)
      rw [hpool] at hname
      have hfits : q.Fits level b.pool (.var x value) ↔
          (grow b.pool [.string x]).length ≤ Chunk.constantsMax ∧
            OptionalFits level (grow b.pool [.string x]) q.final [] q.scope value := by
        rw [Place.Fits, htop]
        exact Stmt.fits_global hb.within hb.few
      refine (hname.trans (soiled_defined depth _) fun hcompiles => ?_).iff hfits
      have hlocated := hmoved.same hcompiles
      have hpool₂ := hcompiles.pool
      rw [hpool] at hpool₂
      have hinitial := settles_initial hlocated.placed hvalue hsemi (hpool₂ ▸ hfinal)
        (hcompiles.upcoming hnext) hmore
      rw [hpool₂, hcompiles.locals] at hinitial
      have hdefined := hinitial.andThen (closed_soiled.defineVariable _ b.advance.readVariable.2)
        fun hdone => by
          have hdefine := (hlocated.same hdone).compiles_defineVariable_top htop
            b.advance.readVariable.2
          exact hdone.trans hdefine
      rw [hindex hcompiles.took.clean.not_soiled, List.append_nil, List.append_nil] at hdefined
      rw [hindex hcompiles.took.clean.not_soiled, q.after_top htop]
      exact hdefined
  | false =>
      simp only [Stmt.constants, htop, Bool.false_eq_true, if_false, List.nil_append] at hfinal
      have hname := hmoved.settles_readVariable_local htop hnext (by simp) ht
      have hfits : q.Fits level b.pool (.var x value) ↔ (x ∉ q.here ∧ q.scope.length < localsMax) ∧
          OptionalFits level b.pool q.final [x] q.scope value := by
        rw [Place.Fits, htop]
        exact Stmt.fits_local hb.within hb.ready.room
      refine (hname.trans (soiled_defined depth _) fun hcompiles => ?_).iff hfits
      have hready := hcompiles.ready hmoved.ready
      have hpool₂ : b.advance.readVariable.1.pool = b.pool := hcompiles.pool.trans hpool
      have hplaced : Placed (q.spot depth level [x]) b.advance.readVariable.1 := by
        refine ⟨hready, ?_, hcompiles.took.nesting.trans hmoved.nesting, hb.within, hb.deep⟩
        rw [hcompiles.locals, ← hmoved.locals]
        exact hmoved.knows [x]
      have hinitial := settles_initial hplaced hvalue hsemi (hpool₂.symm ▸ hfinal)
        (hcompiles.upcoming hnext) hmore
      rw [hpool₂, hcompiles.locals] at hinitial
      have hdefined := hinitial.andThen (closed_soiled.defineVariable _ b.advance.readVariable.2)
        fun hdone => by
          have hscopes : Builder.scopeDepth _ = q.scopes :=
            (hdone.depth.trans hcompiles.depth).trans hmoved.scopes
          have hinside : 0 < q.scopes := Nat.pos_of_ne_zero (of_decide_eq_false htop)
          have hdefine := compiles_defineVariable_local (hdone.ready hready) hdone.locals
            (hscopes ▸ hinside) b.advance.readVariable.2
          rw [hscopes] at hdefine
          exact hdone.trans hdefine
      rw [List.append_nil, List.append_nil] at hdefined
      rw [q.after_local htop]
      exact hdefined

end Located

end StackScript.Builder
