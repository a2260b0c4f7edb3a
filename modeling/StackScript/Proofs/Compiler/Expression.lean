import StackScript.Proofs.Builder.Scoping
import StackScript.Proofs.Grammar.Precedence
import StackScript.Proofs.Tree.Fits

/-!
Expressions of the grammar are compiled to the code of their trees, or reported when they
do not fit. A left operand is read on the level of the whole expression, so the claim for
it cannot be about a finished operand: it says that the loop over the operators, started
behind the first token, gets to the point where the left operand has been compiled.
-/

namespace StackScript.Builder

open Tree TokenKind

/-- Where an expression stands: the bound on the recursion below it, the levels that are
open around it, the final pool, the locals that are being initialized, and those that can
be read. -/
structure Spot where
  depth : Nat
  level : Nat
  final : List Value
  pending : List String
  scope : Scope

namespace Spot

/-- The spot of what stands inside an expression. -/
def inner (s : Spot) : Spot := { s with depth := s.depth - 1, level := s.level + 1 }

/-- Whether an expression fits at a spot. -/
def Fits (s : Spot) (pool : List Value) (e : Expr) : Prop :=
  e.Fits s.level pool s.final s.pending s.scope

end Spot

/-- The builder has come to a spot. -/
structure Placed (s : Spot) (b : Builder) : Prop where
  ready : b.Ready
  knows : Knows b.locals s.pending s.scope
  nesting : b.nesting = s.level
  level : s.level ≤ nestingMax
  depth : nestingMax < s.depth + s.level

theorem Placed.after {s : Spot} {b b' : Builder} {ts : List Token} {constants : List Value}
    {items : List Item} (h : Placed s b) (hcompiles : b.Compiles ts constants items b.locals b') :
    Placed s b' where
  ready := hcompiles.ready h.ready
  knows := by
    rw [hcompiles.locals]
    exact h.knows
  nesting := hcompiles.took.nesting.trans h.nesting
  level := h.level
  depth := h.depth

/-- The first operand of an expression. -/
def begun (operand : Precedence → Builder → Builder) (p : Precedence) (b : Builder) : Builder :=
  match b.current.kind.lead? with
  | none => b.advance
  | some l => b.advance.lead operand (p = .assignment) l

/-- The operators behind a first operand, with their right operands. -/
def joined (operand : Precedence → Builder → Builder) (p : Precedence) (b : Builder) : Builder :=
  repeatWhile (joinsAt p) (joinNext operand) b.unread b

theorem begun_eq {operand : Precedence → Builder → Builder} {p : Precedence} {b : Builder}
    {l : Lead} (hl : b.current.kind.lead? = some l) :
    begun operand p b = b.advance.lead operand (p = .assignment) l := by
  rw [begun, hl]

theorem operandWithin_eq {operand : Precedence → Builder → Builder} {p : Precedence}
    {b b' : Builder} {l : Lead} (hl : b.current.kind.lead? = some l)
    (hjoined : joined operand p (begun operand p b) = b') :
    operandWithin operand p b =
      if decide (p = .assignment) && b'.sees .assign then
        b'.advance.errorAtPrevious .invalidAssignmentTarget
      else b' := by
  subst hjoined
  simp only [operandWithin, previous_advance, hl, begun_eq hl, joined]

/-- The tokens of the expression are compiled to its code if it fits, wherever tokens of
this rank stand and no operator that would belong to it follows. -/
def Settled (n : Nat) (e : Expr) (ts : List Token) : Prop :=
  ∀ (s : Spot) (b : Builder) (p : Precedence) (u : Token) (rest : List Token),
    Placed s.inner b → grow b.pool (e.constants s.scope) <+: s.final → p.rank ≤ n →
    b.upcoming = ts ++ u :: rest → u.kind.Below (reach n) → u.kind ≠ .assign →
    (s.Fits b.pool e ∧ ∃ b' bound,
      joined (operand s.inner.depth) p (begun (operand s.inner.depth) p b) =
        repeatWhile (joinsAt p) (joinNext (operand s.inner.depth)) bound b' ∧
      b'.unread.length ≤ bound.length ∧
      b.Compiles ts (e.constants s.scope) (e.code s.final s.scope) b.locals b') ∨
    (¬ s.Fits b.pool e ∧
      (joined (operand s.inner.depth) p (begun (operand s.inner.depth) p b)).Soiled)

theorem soiled_joined {depth : Nat} {p : Precedence} {b : Builder} (h : b.Soiled) :
    (joined (operand depth) p b).Soiled :=
  closed_soiled.repeatWhile (closed_soiled.joinNext (closed_soiled.operand depth)) _ _ h

/-- It is enough to settle the first operand when it is the whole expression. -/
theorem Settled.of_begun {n : Nat} {e : Expr} {ts : List Token}
    (h : ∀ (s : Spot) (b : Builder) (p : Precedence) (u : Token) (rest : List Token),
      Placed s.inner b → grow b.pool (e.constants s.scope) <+: s.final → p.rank ≤ n →
      b.upcoming = ts ++ u :: rest → u.kind.Below (reach n) → u.kind ≠ .assign →
      b.Settles (s.Fits b.pool e) ts (e.constants s.scope) (e.code s.final s.scope) b.locals
        (begun (operand s.inner.depth) p b)) : Settled n e ts := by
  intro s b p u rest hplaced hfinal hrank hahead hbelow hnext
  rcases h s b p u rest hplaced hfinal hrank hahead hbelow hnext with ⟨hfits, hcompiles⟩ |
    ⟨hmisfit, hsoiled⟩
  · exact Or.inl ⟨hfits, _, _, rfl, Nat.le_refl _, hcompiles⟩
  · exact Or.inr ⟨hmisfit, soiled_joined hsoiled⟩

theorem Settled.looser {n : Nat} {e : Expr} {ts : List Token} (h : Settled (n + 1) e ts) :
    Settled n e ts := by
  intro s b p u rest hplaced hfinal hrank hahead hbelow hnext
  exact h s b p u rest hplaced hfinal (Nat.le_succ_of_le hrank) hahead
    (hbelow.mono (reach_mono (Nat.le_succ n))) hnext

/-- What has been compiled on a level of its own. -/
theorem Compiles.closeLevel {b b' : Builder} {ts : List Token} {constants : List Value}
    {items : List Item} {locals : List Local} (h : b.deeper.Compiles ts constants items locals b') :
    b.Compiles ts constants items locals { b' with nesting := b'.nesting - 1 } where
  took := ⟨⟨h.took.clean.errors, h.took.clean.calm⟩, h.took.upcoming, h.took.previous,
    congrArg (· - 1) h.took.nesting⟩
  pool := h.pool
  room := h.room
  wrote := h.wrote
  locals := h.locals
  depth := h.depth

/-- A level is opened for a body, unless there are too many. -/
theorem Placed.settles_nested {s : Spot} {b : Builder} (hplaced : Placed s b)
    {body : Builder → Builder} {fits : Prop} {ts : List Token} {constants : List Value}
    {items : List Item} {locals : List Local} (hlevel : fits → s.level < nestingMax)
    (hbody : Placed s.inner b.deeper →
      b.deeper.Settles fits ts constants items locals (body b.deeper)) :
    b.Settles fits ts constants items locals (nested body b) := by
  by_cases hfull : b.nesting = nestingMax
  · refine Or.inr ⟨fun h => ?_, nested_of_full hplaced.ready.clean hfull⟩
    have := hlevel h
    have := hplaced.nesting
    omega
  · have hroom : s.level < nestingMax := by
      have := hplaced.nesting
      have := hplaced.level
      omega
    have hinner : Placed s.inner b.deeper := by
      refine ⟨⟨⟨hplaced.ready.clean.errors, hplaced.ready.clean.calm⟩, hplaced.ready.ahead,
        hplaced.ready.room⟩, hplaced.knows, congrArg (· + 1) hplaced.nesting, hroom, ?_⟩
      have := hplaced.depth
      simp only [Spot.inner]
      omega
    rw [nested_of_room body hfull]
    exact (hbody hinner).imp (And.imp_right Compiles.closeLevel) (And.imp_right id)

theorem joinsAt_of_below {p : Precedence} {b : Builder} (h : b.current.kind.Below p.rank) :
    b.joinsAt p = false := by
  unfold joinsAt
  cases hj : b.current.kind.join? with
  | none => rfl
  | some j => simpa [Precedence.admits] using h j hj

/-- A loop whose condition fails does nothing. -/
theorem repeatWhile_of_not {more : Builder → Bool} {body : Builder → Builder} {b : Builder}
    (h : more b = false) (bound : List Token) : repeatWhile more body bound b = b := by
  cases bound with
  | nil => rfl
  | cons _ _ => simp [repeatWhile, h]

/-- A settled expression as an operand. -/
theorem Settled.asOperand {n : Nat} {e : Expr} {ts : List Token} (h : Settled n e ts)
    {s : Spot} {b : Builder} {p : Precedence} {u : Token} {rest : List Token} (hplaced : Placed s b)
    (hfinal : grow b.pool (e.constants s.scope) <+: s.final) (hrank : p.rank ≤ n)
    {l : Lead} (hlead : b.current.kind.lead? = some l)
    (hahead : b.upcoming = ts ++ u :: rest) (hbelow : u.kind.Below p.rank)
    (hnext : u.kind ≠ .assign) :
    b.Settles (s.Fits b.pool e) ts (e.constants s.scope) (e.code s.final s.scope) b.locals
      (operand s.depth p b) := by
  have hlevel : s.Fits b.pool e → s.level < nestingMax := by
    intro hfits
    have hle : s.level + e.levels ≤ nestingMax := hfits.1
    have := e.levels_pos
    omega
  have hbody : Placed s.inner b.deeper →
      b.deeper.Settles (s.Fits b.pool e) ts (e.constants s.scope) (e.code s.final s.scope) b.locals
        (operandWithin (operand s.inner.depth) p b.deeper) := by
    intro hinner
    have hleads : b.deeper.current.kind.lead? = some l := hlead
    have hreach : u.kind.Below (reach n) := hbelow.mono (hrank.trans (le_reach n))
    rcases h s b.deeper p u rest hinner hfinal hrank hahead hreach hnext with
      ⟨hfits, b', bound, hjoined, -, hcompiles⟩ | ⟨hmisfit, hsoiled⟩
    · have hcurrent : b'.current = u := List.head_eq_of_cons_eq (hcompiles.upcoming hahead)
      rw [repeatWhile_of_not (joinsAt_of_below (hcurrent ▸ hbelow))] at hjoined
      rw [operandWithin_eq hleads hjoined]
      simp only [sees, hcurrent, hnext, decide_false, Bool.and_false, Bool.false_eq_true, if_false]
      exact Or.inl ⟨hfits, hcompiles⟩
    · refine Or.inr ⟨hmisfit, ?_⟩
      rw [operandWithin_eq hleads rfl]
      split
      · exact (closed_soiled.advance _ hsoiled).report _ _
      · exact hsoiled
  have hnested := hplaced.settles_nested hlevel hbody
  have hpos : 0 < s.depth := by
    have := hplaced.depth
    have := hplaced.level
    omega
  obtain ⟨d, hd⟩ : ∃ d, s.depth = d + 1 := ⟨s.depth - 1, by omega⟩
  rw [hd, operand]
  simpa [Spot.inner, hd] using hnested

/-- The first token of an expression is behind. -/
theorem Placed.first {s : Spot} {b : Builder} (hplaced : Placed s b) {t : Token}
    {rest : List Token} (hahead : b.upcoming = t :: rest) (hmore : rest ≠ []) :
    b.current = t ∧ b.Compiles [t] [] [] b.locals b.advance ∧ Placed s b.advance ∧
      b.advance.locals = b.locals ∧ b.advance.pool = b.pool := by
  have hcompiles := hplaced.ready.compiles_advance hahead hmore
  exact ⟨List.head_eq_of_cons_eq hahead, hcompiles, hplaced.after hcompiles, hcompiles.locals,
    hcompiles.pool⟩

/-- What is settled behind the first token is settled from there on. -/
theorem settles_begun {depth : Nat} {p : Precedence} {b : Builder} {t : Token} {l : Lead}
    (hadvance : b.Compiles [t] [] [] b.locals b.advance) (hl : b.current.kind.lead? = some l)
    {fits : Prop} {ts : List Token} {constants : List Value} {items : List Item}
    {locals : List Local} (h : b.advance.Settles fits ts constants items locals
      (b.advance.lead (operand depth) (p = .assignment) l)) :
    b.Settles fits (t :: ts) constants items locals (begun (operand depth) p b) := by
  rw [begun_eq hl]
  exact hadvance.settles h

section Primary

variable {t : Token}

theorem settled_literal {op : Opcode} {e : Expr} (ht : t.kind.lead? = some (.literal op))
    (hlevels : e.levels = 1) (hmentions : ∀ x, e.mentions x = false)
    (hconstants : ∀ scope, e.constants scope = [])
    (hcode : ∀ final scope, e.code final scope = [.plain op]) : Settled primaryRank e [t] := by
  refine Settled.of_begun fun s b p u rest hplaced _ _ hahead _ _ => ?_
  obtain ⟨hcurrent, hadvance, hmoved, hlocals, -⟩ := hplaced.first hahead (by simp)
  have hemit := hadvance.trans (hmoved.ready.compiles_emit op)
  have hfits : s.Fits b.pool e := by
    refine (Expr.fits_literal hlevels (by simp [hcode, Item.fits]) hmentions).mpr ?_
    rw [hconstants]
    exact ⟨hplaced.level, hplaced.ready.room⟩
  rw [begun_eq (hcurrent ▸ ht), hconstants, hcode]
  exact Or.inl ⟨hfits, hlocals ▸ hemit⟩

theorem settled_constant {v : Value} {l : Lead} {e : Expr} (ht : t.kind.lead? = some l)
    (hlead : ∀ (operand : Precedence → Builder → Builder) (canAssign : Bool) (b : Builder),
      t.WellSpelled → b.previous = t → b.lead operand canAssign l = b.emitConstant v)
    (hlevels : e.levels = 1) (hmentions : ∀ x, e.mentions x = false)
    (hconstants : ∀ scope, e.constants scope = [v])
    (hcode : ∀ final scope, e.code final scope = [.operand .constant (indexIn final v)]) :
    Settled primaryRank e [t] := by
  refine Settled.of_begun fun s b p u rest hplaced hfinal _ hahead _ _ => ?_
  obtain ⟨hcurrent, hadvance, hmoved, hlocals, hpool⟩ := hplaced.first hahead (by simp)
  have hspelled : t.WellSpelled := (hplaced.ready.ahead t (by simp [hahead])).2
  rw [hconstants] at hfinal
  have hemit := hmoved.ready.settles_emitConstant (hpool.symm ▸ hfinal)
  rw [hpool, hlocals] at hemit
  have hfits : s.Fits b.pool e ↔ (grow b.pool [v]).length ≤ Chunk.constantsMax := by
    refine (Expr.fits_literal hlevels (by simp [hcode, Item.fits]) hmentions).trans ?_
    rw [hconstants]
    exact and_iff_right hplaced.level
  have hprevious : b.advance.previous = t := (previous_advance b).trans hcurrent
  rw [← hlead (operand s.inner.depth) (p = .assignment) _ hspelled hprevious] at hemit
  rw [hconstants, hcode]
  exact (settles_begun hadvance (hcurrent ▸ ht) hemit).iff hfits

theorem settled_name {x : String} (ht : Spelled t .identifier x) :
    Settled primaryRank (.name x) [t] := by
  refine Settled.of_begun fun s b p u rest hplaced hfinal _ hahead _ hnext => ?_
  obtain ⟨hcurrent, hadvance, hmoved, hlocals, hpool⟩ := hplaced.first hahead (by simp)
  have hlead : b.current.kind.lead? = some .identifier := by rw [hcurrent, ht.1]; rfl
  have hprevious : b.advance.previous.lexeme = x := by rw [previous_advance, hcurrent, ht.2]
  have hbehind : b.advance.current = u := List.head_eq_of_cons_eq (hadvance.upcoming hahead)
  have hread := hmoved.ready.settles_read hmoved.knows (closed_soiled.operand s.inner.depth)
    hprevious (hpool.symm ▸ hfinal) (decide (p = .assignment)) (hbehind ▸ hnext)
  rw [hpool, hlocals] at hread
  refine (settles_begun hadvance hlead hread).iff (Expr.fits_name.trans ?_)
  exact and_iff_right hplaced.level

end Primary

/-- A settled expression as an operand inside another one. -/
theorem Settled.inside {n : Nat} {e : Expr} {ts : List Token} (h : Settled n e ts)
    (htokens : ExprTokens n e ts) {s : Spot} {b : Builder} {p : Precedence} {u : Token}
    {rest : List Token} (hplaced : Placed s b)
    (hfinal : grow b.pool (e.constants s.scope) <+: s.final) (hrank : p.rank ≤ n)
    (hahead : b.upcoming = ts ++ u :: rest) (hbelow : u.kind.Below p.rank)
    (hnext : u.kind ≠ .assign) :
    b.Settles (s.Fits b.pool e) ts (e.constants s.scope) (e.code s.final s.scope) b.locals
      (operand s.depth p b) := by
  obtain ⟨t, more, l, rfl, hl⟩ := htokens.exists_lead
  have hcurrent : b.current = t := List.head_eq_of_cons_eq hahead
  exact h.asOperand hplaced hfinal hrank (hcurrent ▸ hl) hahead hbelow hnext

/-- No operator is also an assignment. -/
theorem ne_assign_of_join {k : TokenKind} {j : Join} (h : k.join? = some j) : k ≠ .assign := by
  rintro rfl
  cases h

section Compound

variable {t : Token} {ts us : List Token}

theorem settled_assign {eq : Token} {x : String} {value : Expr} (ht : Spelled t .identifier x)
    (heq : eq.kind = .assign) (hvalue : Settled Precedence.assignment.rank value ts)
    (htokens : WholeExpr value ts) :
    Settled Precedence.assignment.rank (.assign x value) (t :: eq :: ts) := by
  refine Settled.of_begun fun s b p u rest hplaced hfinal hrank hahead hbelow hnext => ?_
  obtain ⟨hcurrent, hadvance, hmoved, hlocals, hpool⟩ := hplaced.first hahead (by simp)
  have hlead : b.current.kind.lead? = some .identifier := by rw [hcurrent, ht.1]; rfl
  have hprevious : b.advance.previous.lexeme = x := by rw [previous_advance, hcurrent, ht.2]
  have hbehind : b.advance.upcoming = eq :: (ts ++ u :: rest) := hadvance.upcoming hahead
  obtain rfl : p = .assignment := by
    cases p <;> first | rfl | exact absurd hrank (by decide)
  have hnamed : grow b.pool (s.scope.nameConstant x) <+: s.final := by
    refine (prefix_grow _ (value.constants s.scope)).trans ?_
    rwa [← grow_append]
  have hinner : ∀ b', b.advance.Compiles [eq] (s.scope.nameConstant x) [] b.advance.locals b' →
      b'.Settles (s.inner.Fits (grow b.pool (s.scope.nameConstant x)) value) ts
        (value.constants s.scope) (value.code s.final s.scope) b.advance.locals
        (operand s.inner.depth .assignment b') := by
    intro b' hcompiles
    have hpool' : b'.pool = grow b.pool (s.scope.nameConstant x) := by rw [hcompiles.pool, hpool]
    have hfinal' : grow b'.pool (value.constants s.scope) <+: s.final := by
      rw [hpool', ← grow_append]
      exact hfinal
    have hoperand := hvalue.inside htokens (hmoved.after hcompiles) hfinal' (Nat.le_refl _)
      (hcompiles.upcoming hbehind) hbelow hnext
    rw [hpool', hcompiles.locals] at hoperand
    exact hoperand
  have hassign := hmoved.ready.settles_assign hmoved.knows (closed_soiled.operand s.inner.depth)
    hprevious (hpool.symm ▸ hnamed) hbehind (by simp) heq hinner
  rw [hpool, hlocals] at hassign
  exact (settles_begun hadvance hlead hassign).iff Expr.fits_assign

theorem settled_group {l r : Token} {e : Expr} (hl : l.kind = .leftParen)
    (he : Settled Precedence.assignment.rank e ts) (htokens : WholeExpr e ts)
    (hr : r.kind = .rightParen) : Settled primaryRank (.group e) (l :: ts ++ [r]) := by
  refine Settled.of_begun fun s b p u rest hplaced hfinal _ hahead _ _ => ?_
  have hahead' : b.upcoming = l :: (ts ++ r :: u :: rest) := by simpa using hahead
  obtain ⟨hcurrent, hadvance, hmoved, hlocals, hpool⟩ := hplaced.first hahead' (by simp)
  have hlead : b.current.kind.lead? = some .group := by rw [hcurrent, hl]; rfl
  have hinside := hadvance.upcoming hahead'
  have hbelow : r.kind.Below Precedence.assignment.rank := by
    rw [hr]
    exact fun j hj => nomatch hj
  have hoperand := he.inside htokens hmoved (hpool.symm ▸ hfinal) (Nat.le_refl _) hinside hbelow
    (by rw [hr]; decide)
  rw [hpool, hlocals] at hoperand
  have hclosed := hoperand.andThen (closed_soiled.expect _ .rightParen .parenAfterExpression)
    fun hcompiles => by
      have hexpect := (hcompiles.ready hmoved.ready).compiles_expect (hcompiles.upcoming hinside)
        (List.cons_ne_nil u rest) hr .parenAfterExpression
      rw [hcompiles.locals] at hexpect
      exact hcompiles.trans hexpect
  rw [List.append_nil, List.append_nil] at hclosed
  exact (settles_begun hadvance hlead hclosed).iff Expr.fits_group

theorem settled_unary {op : UnaryOp} {e : Expr} (ht : t.kind = op.token)
    (he : Settled Precedence.unary.rank e ts) (htokens : ExprTokens Precedence.unary.rank e ts) :
    Settled Precedence.unary.rank (.unary op e) (t :: ts) := by
  refine Settled.of_begun fun s b p u rest hplaced hfinal _ hahead _ hnext => ?_
  obtain ⟨hcurrent, hadvance, hmoved, hlocals, hpool⟩ := hplaced.first hahead (by simp)
  have hlead : b.current.kind.lead? = some (.unary op.opcode) := by
    rw [hcurrent, ht]
    cases op <;> rfl
  have hinside := hadvance.upcoming hahead
  have hoperand := he.inside htokens hmoved (hpool.symm ▸ hfinal) (Nat.le_refl _) hinside
    (below_unary u.kind) hnext
  rw [hpool, hlocals] at hoperand
  have hclosed := hoperand.andThen (closed_soiled.emit _ op.opcode) fun hcompiles => by
      have hemit := (hcompiles.ready hmoved.ready).compiles_emit op.opcode
      rw [hcompiles.locals] at hemit
      exact hcompiles.trans hemit
  rw [List.append_nil, List.append_nil] at hclosed
  exact (settles_begun hadvance hlead hclosed).iff Expr.fits_unary

/-- An operator behind a left operand is taken in by the loop that has read the operand. -/
theorem Settled.join {m n : Nat} {l r whole : Expr} {j : Join} (hl : Settled m l ts)
    (hj : t.kind.join? = some j) (hn : j.precedence.rank = n) (hreach : n < reach m) (hm : n ≤ m)
    (items : Spot → List Item) (fits : Spot → List Value → Prop)
    (hright : ∀ (s : Spot) (b : Builder) (u : Token) (rest : List Token), Placed s.inner b →
      grow b.pool (r.constants s.scope) <+: s.final → b.upcoming = us ++ u :: rest →
      u.kind.Below (reach n) → u.kind ≠ .assign →
      b.Settles (fits s b.pool) us (r.constants s.scope) (items s) b.locals
        (b.join (operand s.inner.depth) j))
    (hconstants : ∀ scope, whole.constants scope = l.constants scope ++ r.constants scope)
    (hcode : ∀ s : Spot, whole.code s.final s.scope = l.code s.final s.scope ++ items s)
    (hfits : ∀ (s : Spot) (pool : List Value), s.Fits pool whole ↔
      s.Fits pool l ∧ fits s (grow pool (l.constants s.scope))) :
    Settled n whole (ts ++ t :: us) := by
  intro s b p u rest hplaced hfinal hrank hahead hbelow hnext
  rw [hconstants, grow_append] at hfinal
  have hahead' : b.upcoming = ts ++ t :: (us ++ u :: rest) := by simpa using hahead
  have hoperator : t.kind.Below (reach m) := by
    intro k hk
    obtain rfl : j = k := Option.some.inj (hj.symm.trans hk)
    exact hn ▸ hreach
  have hjoin := closed_soiled.joinNext (closed_soiled.operand s.inner.depth)
  rcases hl s b p t (us ++ u :: rest) hplaced ((prefix_grow _ _).trans hfinal) (hrank.trans hm)
    hahead' hoperator (ne_assign_of_join hj) with
    ⟨hfitsLeft, b₁, bound, hjoined, hbound, hcompiles⟩ | ⟨hmisfit, hsoiled⟩
  · have hplaced₁ := hplaced.after hcompiles
    have hahead₁ : b₁.upcoming = t :: (us ++ u :: rest) := hcompiles.upcoming hahead'
    obtain ⟨hcurrent, hadvance, hmoved, hlocals, hpool⟩ := hplaced₁.first hahead₁ (by simp)
    have hgoes : b₁.joinsAt p = true := by
      simp [joinsAt, hcurrent, hj, Precedence.admits, hn, hrank]
    have hnextEq : b₁.joinNext (operand s.inner.depth) =
        b₁.advance.join (operand s.inner.depth) j := by
      simp only [joinNext, previous_advance, hcurrent, hj]
    have hpool' : b₁.advance.pool = grow b.pool (l.constants s.scope) := hpool.trans hcompiles.pool
    have hoperand := hright s b₁.advance u rest hmoved (hpool' ▸ hfinal)
      (hadvance.upcoming hahead₁) hbelow hnext
    rw [hpool', hlocals, hcompiles.locals, ← hnextEq] at hoperand
    obtain ⟨_, bound, rfl⟩ : ∃ x xs, bound = x :: xs := by
      have hunread : b₁.unread = us ++ u :: rest := List.tail_eq_of_cons_eq hahead₁
      rw [hunread, List.length_append, List.length_cons] at hbound
      exact List.exists_cons_of_length_pos (by omega)
    rw [hjoined, repeatWhile, if_pos hgoes]
    rcases hoperand with ⟨hfitsRight, hcompiles'⟩ | ⟨hmisfit, hsoiled⟩
    · have hbehind := hadvance.trans hcompiles'
      have hwhole := hcompiles.trans hbehind
      simp only [List.nil_append, List.singleton_append] at hwhole
      refine Or.inl ⟨(hfits s b.pool).mpr ⟨hfitsLeft, hfitsRight⟩, _, bound, rfl, ?_, ?_⟩
      · have hlength := hbehind.took.length_unread
        simp only [List.length_append, List.length_cons, List.length_nil] at hlength hbound
        omega
      · rw [hconstants, hcode]
        exact hwhole
    · exact Or.inr ⟨fun h => hmisfit ((hfits s b.pool).mp h).2,
        closed_soiled.repeatWhile hjoin _ _ hsoiled⟩
  · exact Or.inr ⟨fun h => hmisfit ((hfits s b.pool).mp h).1, hsoiled⟩

theorem settled_binary {op : BinaryOp} {l r : Expr} (hl : Settled op.precedence.rank l ts)
    (ht : t.kind = op.token) (hr : Settled (op.precedence.rank + 1) r us)
    (htokens : ExprTokens (op.precedence.rank + 1) r us) :
    Settled op.precedence.rank (.binary op l r) (ts ++ t :: us) := by
  obtain ⟨right, hj, hright⟩ := op.join?_token
  have hreach := reach_of_equality_le op.equality_le_rank
  refine hl.join (ht ▸ hj) rfl (hreach ▸ Nat.lt_succ_self _) (Nat.le_refl _)
    (fun s => r.code s.final s.scope ++ op.opcodes.map .plain) (fun s pool => s.inner.Fits pool r)
    ?_ (fun _ => rfl) (fun _ => rfl) (fun _ _ => Expr.fits_binary)
  intro s b u rest hplaced hfinal hahead hbelow hnext
  have hoperand := hr.inside htokens hplaced hfinal (Nat.le_of_eq hright) hahead
    (by rwa [hright, ← hreach]) hnext
  have hops := hoperand.andThen (Stationary.foldl_emit op.opcodes _).keeps fun hcompiles => by
    have hemit := (hcompiles.ready hplaced.ready).compiles_foldl_emit op.opcodes
    rw [hcompiles.locals] at hemit
    exact hcompiles.trans hemit
  rw [List.append_nil, List.append_nil] at hops
  exact hops

theorem settled_and {l r : Expr} (hl : Settled (Precedence.and.rank + 1) l ts)
    (ht : t.kind = .andWord) (hr : Settled Precedence.and.rank r us)
    (htokens : ExprTokens Precedence.and.rank r us) :
    Settled Precedence.and.rank (.and l r) (ts ++ t :: us) := by
  refine hl.join (show _ = some Join.conjunction by rw [ht]; rfl) rfl (by decide) (by decide)
    (fun s => .jump .jumpIfFalse (codeSize (.plain .pop :: r.code s.final s.scope)) ::
      .plain .pop :: r.code s.final s.scope)
    (fun s pool => s.inner.Fits pool r ∧
      codeSize (.plain .pop :: r.code s.final s.scope) ≤ distanceMax)
    ?_ (fun _ => rfl) (fun _ => rfl) (fun _ _ => Expr.fits_and)
  intro s b u rest hplaced hfinal hahead hbelow hnext
  have hjump := hplaced.ready.compiles_emitJump .jumpIfFalse
  have hpop := (hjump.ready hplaced.ready).compiles_emit .pop
  have hstart : b.Compiles [] [] [.jump .jumpIfFalse distanceMax, .plain .pop] b.locals
      ((b.emitJump .jumpIfFalse).1.emit .pop) := hjump.trans hpop
  have hoperand := hr.inside htokens (hplaced.after hstart) hfinal (Nat.le_refl _) hahead hbelow
    hnext
  have hall : b.Settles (s.inner.Fits b.pool r) us (r.constants s.scope)
      (.jump .jumpIfFalse distanceMax :: .plain .pop :: r.code s.final s.scope) b.locals
      (operand s.inner.depth .and ((b.emitJump .jumpIfFalse).1.emit .pop)) :=
    hstart.settles hoperand
  refine hall.bind (closed_soiled.patchJump _ _) fun hcompiles => ?_
  exact Compiles.settles_patchJump [] _ hcompiles (b.wrote_emitJump .jumpIfFalse).2

theorem settled_or {l r : Expr} (hl : Settled (Precedence.or.rank + 1) l ts)
    (ht : t.kind = .orWord) (hr : Settled Precedence.or.rank r us)
    (htokens : ExprTokens Precedence.or.rank r us) :
    Settled Precedence.or.rank (.or l r) (ts ++ t :: us) := by
  refine hl.join (show _ = some Join.disjunction by rw [ht]; rfl) rfl (by decide) (by decide)
    (fun s => .jump .jumpIfFalse 3 ::
      .jump .jump (codeSize (.plain .pop :: r.code s.final s.scope)) ::
      .plain .pop :: r.code s.final s.scope)
    (fun s pool => s.inner.Fits pool r ∧
      codeSize (.plain .pop :: r.code s.final s.scope) ≤ distanceMax)
    ?_ (fun _ => rfl) (fun _ => rfl) (fun _ _ => Expr.fits_or)
  intro s b u rest hplaced hfinal hahead hbelow hnext
  have hjump := hplaced.ready.compiles_emitJump .jumpIfFalse
  have hend := (hjump.ready hplaced.ready).compiles_emitJump .jump
  have hjumps : b.Compiles [] [] ([] ++ .jump .jumpIfFalse distanceMax ::
      [.jump .jump distanceMax]) b.locals ((b.emitJump .jumpIfFalse).1.emitJump .jump).1 :=
    hjump.trans hend
  have hpatched : b.Compiles [] [] [.jump .jumpIfFalse 3, .jump .jump distanceMax] b.locals
      (((b.emitJump .jumpIfFalse).1.emitJump .jump).1.patchJump (b.emitJump .jumpIfFalse).2) :=
    (Compiles.settles_patchJump [] _ hjumps (b.wrote_emitJump .jumpIfFalse).2).compiles (by decide)
  have hpop := (hpatched.ready hplaced.ready).compiles_emit .pop
  rw [hpatched.locals] at hpop
  have hstart := hpatched.trans hpop
  have hoperand := hr.inside htokens (hplaced.after hstart) (hstart.pool.symm ▸ hfinal)
    (Nat.le_refl _) (hstart.upcoming hahead) hbelow hnext
  rw [hstart.pool, hstart.locals] at hoperand
  have hall : b.Settles (s.inner.Fits b.pool r) us (r.constants s.scope)
      ([.jump .jumpIfFalse 3] ++ .jump .jump distanceMax :: .plain .pop :: r.code s.final s.scope)
      b.locals (operand s.inner.depth .or _) := hstart.settles hoperand
  refine hall.bind (closed_soiled.patchJump _ _) fun hcompiles => ?_
  have hoffset := ((b.emitJump .jumpIfFalse).1.wrote_emitJump .jump).2
  rw [hjump.wrote.size] at hoffset
  exact Compiles.settles_patchJump [.jump .jumpIfFalse 3] _ hcompiles hoffset

end Compound

/-- Every expression of the grammar is settled. -/
theorem settled_of_exprTokens {n : Nat} {e : Expr} {ts : List Token} (h : ExprTokens n e ts) :
    Settled n e ts := by
  induction h with
  | nil ht =>
      exact settled_literal (by rw [ht]; rfl) rfl (fun _ => rfl) (fun _ => rfl) fun _ _ => rfl
  | true ht =>
      exact settled_literal (by rw [ht]; rfl) rfl (fun _ => rfl) (fun _ => rfl) fun _ _ => rfl
  | false ht =>
      exact settled_literal (by rw [ht]; rfl) rfl (fun _ => rfl) (fun _ => rfl) fun _ _ => rfl
  | number ht =>
      refine settled_constant (l := .number) (by rw [ht.1]; rfl) ?_ rfl (fun _ => rfl)
        (fun _ => rfl) fun _ _ => rfl
      intro operand canAssign b hspelled hprevious
      obtain ⟨x, hx⟩ := Option.isSome_iff_exists.mp (hspelled.number ht.1)
      rw [ht.2] at hx
      simp only [lead, number, hprevious, ht.2, hx, numberValue, Option.getD_some]
  | @string t s ht =>
      refine settled_constant (l := .string) (by rw [ht.1]; rfl) ?_ rfl (fun _ => rfl)
        (fun _ => rfl) fun _ _ => rfl
      intro operand canAssign b _ hprevious
      have htext : String.ofList (("\"" ++ s ++ "\"").toList.tail.dropLast) = s := by simp
      simp only [lead, string, hprevious, ht.2, htext]
  | name ht => exact settled_name ht
  | group hl htokens hr ih => exact settled_group hl ih htokens hr
  | unary ht htokens ih => exact settled_unary ht ih htokens
  | binary _ ht hright ihl ihr => exact settled_binary ihl ht ihr hright
  | and _ ht hright ihl ihr => exact settled_and ihl ht ihr hright
  | or _ ht hright ihl ihr => exact settled_or ihl ht ihr hright
  | assign ht heq htokens ih => exact settled_assign ht heq ih htokens
  | looser _ ih => exact ih.looser

/-- A whole expression of the grammar is compiled if it fits and reported otherwise. -/
theorem Placed.settles_expression {s : Spot} {b : Builder} (hplaced : Placed s b) {e : Expr}
    {ts rest : List Token} {u : Token} (h : WholeExpr e ts)
    (hfinal : grow b.pool (e.constants s.scope) <+: s.final) (hahead : b.upcoming = ts ++ u :: rest)
    (hbelow : u.kind.Below Precedence.assignment.rank) (hnext : u.kind ≠ .assign) :
    b.Settles (s.Fits b.pool e) ts (e.constants s.scope) (e.code s.final s.scope) b.locals
      (expression s.depth b) :=
  (settled_of_exprTokens h).inside h hplaced hfinal (Nat.le_refl _) hahead hbelow hnext

end StackScript.Builder
