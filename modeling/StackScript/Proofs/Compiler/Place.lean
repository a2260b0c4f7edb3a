import StackScript.Proofs.Compiler.Expression
import StackScript.Builder.Statement

/-!
Where a statement stands. The locals of the builder are those of the innermost scope in
front of those around it; a declaration adds to the front, and the end of a scope leaves
what stood behind.
-/

namespace StackScript.Builder

open Tree

/-- Where a statement stands: the final pool, the names that the innermost scope has
declared, the locals around that scope, and the number of scopes. -/
structure Place where
  final : List Value
  here : List String
  outer : List Local
  scopes : Nat

namespace Place

variable (q : Place)

/-- Whether declarations make globals. -/
def top : Bool := q.scopes = 0

def locals : List Local := q.here.map (fun x => ⟨x, some q.scopes⟩) ++ q.outer

def scope : Scope := q.here ++ q.outer.map Local.name

/-- The place behind the start of a scope. -/
def opened : Place := { q with here := [], outer := q.locals, scopes := q.scopes + 1 }

/-- The place behind a statement. -/
def after (s : Stmt) : Place := if q.top then q else { q with here := s.declared q.here }

/-- The spot of an expression at this place. -/
def spot (depth level : Nat) (pending : List String) : Spot :=
  ⟨depth, level, q.final, pending, q.scope⟩

/-- Whether a statement fits at this place. -/
def Fits (level : Nat) (pool : List Value) (s : Stmt) : Prop :=
  s.Fits level pool q.final q.top q.here q.scope

@[simp] theorem length_locals : q.locals.length = q.scope.length := by
  simp [locals, scope]

theorem names_locals : q.locals.map Local.name = q.scope := by
  have hhere : q.here.map (Local.name ∘ fun x => ⟨x, some q.scopes⟩) = q.here :=
    List.map_id' q.here
  rw [locals, scope, List.map_append, List.map_map, hhere]

theorem scope_opened : q.opened.scope = q.scope :=
  q.names_locals

theorem top_opened : q.opened.top = false :=
  decide_eq_false (Nat.succ_ne_zero q.scopes)

theorem after_top (htop : q.top = true) (s : Stmt) : q.after s = q :=
  if_pos htop

theorem after_local (htop : q.top = false) (s : Stmt) :
    q.after s = { q with here := s.declared q.here } :=
  if_neg (Bool.eq_false_iff.mp htop)

theorem scope_after (s : Stmt) : (q.after s).scope = s.scopeAfter q.top q.scope := by
  cases htop : q.top with
  | true => rw [q.after_top htop, s.scopeAfter_top]
  | false =>
      rw [q.after_local htop]
      exact (s.scopeAfter_local q.here _).symm

@[simp] theorem top_after (s : Stmt) : (q.after s).top = q.top := by
  unfold after
  split <;> rfl

@[simp] theorem final_after (s : Stmt) : (q.after s).final = q.final := by
  unfold after
  split <;> rfl

theorem after_seq (first rest : Stmt) : q.after (.seq first rest) = (q.after first).after rest := by
  cases htop : q.top with
  | true => rw [q.after_top htop, q.after_top htop, q.after_top htop]
  | false =>
      have hafter : ({ q with here := first.declared q.here } : Place).top = false := htop
      rw [q.after_local htop, q.after_local htop, after_local _ hafter]
      rfl

/-- What stands behind a part of a chain fits at the place behind that part. -/
theorem fits_after (level : Nat) (pool : List Value) (first rest : Stmt) :
    (q.after first).Fits level pool rest ↔ rest.Fits level pool q.final q.top
      (first.declared q.here) (first.scopeAfter q.top q.scope) := by
  unfold Place.Fits
  rw [top_after, final_after, scope_after]
  cases htop : q.top with
  | true =>
      have hnames := rest.wellScoped_top q.here (first.declared q.here)
      rw [q.after_top htop]
      constructor
      · rintro ⟨hlevel, hscoped, hlocals, hpool, hcode⟩
        exact ⟨hlevel, hnames ▸ hscoped, hlocals, hpool, hcode⟩
      · rintro ⟨hlevel, hscoped, hlocals, hpool, hcode⟩
        exact ⟨hlevel, hnames ▸ hscoped, hlocals, hpool, hcode⟩
  | false => rw [q.after_local htop]

/-- Nothing is declared in the scope around a statement that is no declaration. -/
theorem after_of_declared {s : Stmt} (h : s.declared q.here = q.here) : q.after s = q := by
  unfold after
  split
  · rfl
  · rw [h]

end Place

/-- The builder has come to a place, with a bound on the recursion below and some levels
open. -/
structure Located (q : Place) (depth level : Nat) (b : Builder) : Prop where
  ready : b.Ready
  locals : b.locals = q.locals
  scopes : b.scopeDepth = q.scopes
  nesting : b.nesting = level
  within : level ≤ nestingMax
  deep : nestingMax < depth + level
  few : q.scope.length ≤ localsMax
  enclosing : ∀ entry ∈ q.outer, ∃ d < q.scopes, entry.depth = some d
  bare : q.top = true → q.here = []

namespace Located

variable {q : Place} {depth level : Nat} {b b' : Builder}

/-- The locals of a place can be read, also from behind one that is being initialized. -/
theorem knows (h : Located q depth level b) (pending : List String) :
    Knows (pending.map (fun x => ⟨x, none⟩) ++ b.locals) pending q.scope := by
  refine ⟨q.locals, by rw [h.locals], q.names_locals, fun entry hentry => ?_⟩
  rcases List.mem_append.mp hentry with hhere | houter
  · obtain ⟨x, -, rfl⟩ := List.mem_map.mp hhere
    simp
  · obtain ⟨d, -, hd⟩ := h.enclosing entry houter
    simp [hd]

theorem placed (h : Located q depth level b) : Placed (q.spot depth level []) b :=
  ⟨h.ready, h.knows [], h.nesting, h.within, h.deep⟩

theorem same {ts : List Token} {constants : List Value} {items : List Item}
    (h : Located q depth level b) (hcompiles : b.Compiles ts constants items q.locals b') :
    Located q depth level b' where
  ready := hcompiles.ready h.ready
  locals := hcompiles.locals
  scopes := hcompiles.depth.trans h.scopes
  nesting := hcompiles.took.nesting.trans h.nesting
  within := h.within
  deep := h.deep
  few := h.few
  enclosing := h.enclosing
  bare := h.bare

/-- The word that starts a statement is behind. -/
theorem word (h : Located q depth level b) {t : Token} {rest : List Token}
    (hahead : b.upcoming = t :: rest) (hmore : rest ≠ []) :
    b.current = t ∧ b.Compiles [t] [] [] q.locals b.advance ∧ Located q depth level b.advance ∧
      b.advance.pool = b.pool ∧ b.advance.upcoming = rest := by
  have hadvance := h.ready.compiles_advance hahead hmore
  rw [h.locals] at hadvance
  exact ⟨List.head_eq_of_cons_eq hahead, hadvance, h.same hadvance, hadvance.pool,
    hadvance.upcoming hahead⟩

theorem inner (h : Located q depth level b) (hroom : level < nestingMax) :
    Located q (depth - 1) (level + 1) b.deeper where
  ready := ⟨⟨h.ready.clean.errors, h.ready.clean.calm⟩, h.ready.ahead, h.ready.room⟩
  locals := h.locals
  scopes := h.scopes
  nesting := congrArg (· + 1) h.nesting
  within := hroom
  deep := by
    have := h.deep
    omega
  few := h.few
  enclosing := h.enclosing
  bare := h.bare

theorem opened (h : Located q depth level b) : Located q.opened depth level b.beginScope where
  ready := ⟨⟨h.ready.clean.errors, h.ready.clean.calm⟩, h.ready.ahead, h.ready.room⟩
  locals := h.locals
  scopes := congrArg (· + 1) h.scopes
  nesting := h.nesting
  within := h.within
  deep := h.deep
  few := by
    rw [q.scope_opened]
    exact h.few
  enclosing := by
    intro entry hentry
    rcases List.mem_append.mp hentry with hhere | houter
    · obtain ⟨x, -, rfl⟩ := List.mem_map.mp hhere
      exact ⟨q.scopes, Nat.lt_succ_self _, rfl⟩
    · obtain ⟨d, hd, hdepth⟩ := h.enclosing entry houter
      exact ⟨d, Nat.lt_succ_of_lt hd, hdepth⟩
  bare _ := rfl

theorem after {ts : List Token} {constants : List Value} {items : List Item} {s : Stmt}
    (h : Located q depth level b) (hcompiles : b.Compiles ts constants items (q.after s).locals b')
    (hfew : (q.after s).scope.length ≤ localsMax) : Located (q.after s) depth level b' := by
  cases htop : q.top with
  | true =>
      rw [q.after_top htop] at hcompiles ⊢
      exact h.same hcompiles
  | false =>
      have hafter := q.after_local htop s
      rw [hafter] at hcompiles hfew ⊢
      refine ⟨hcompiles.ready h.ready, hcompiles.locals, hcompiles.depth.trans h.scopes,
        hcompiles.took.nesting.trans h.nesting, h.within, h.deep, hfew, h.enclosing, ?_⟩
      intro hsame
      exact absurd (hsame.symm.trans htop) (by decide)

end Located

/-- The locals that leave are popped one by one. -/
theorem compiles_dropLocals {b : Builder} (hb : b.Ready) (names : List String) (rest : List Local)
    (hrest : ∀ entry ∈ rest, leavesAt b.scopeDepth entry = false) :
    b.Compiles [] [] (List.replicate names.length (.plain .pop)) rest
      (dropLocals (names.map (fun x => ⟨x, some (b.scopeDepth + 1)⟩) ++ rest) b) := by
  induction names generalizing b with
  | nil =>
      have hstay : dropLocals rest b = { b with locals := rest } := by
        cases rest with
        | nil => rfl
        | cons entry rest =>
            rw [dropLocals, hrest entry (List.mem_cons_self ..)]
            rfl
      rw [List.map_nil, List.nil_append, hstay]
      exact ⟨⟨⟨hb.clean.errors, hb.clean.calm⟩, rfl, rfl, rfl⟩, rfl, hb.room, Chunk.Wrote.nil _,
        rfl, rfl⟩
  | cons x names ih =>
      have hleaves : leavesAt b.scopeDepth ⟨x, some (b.scopeDepth + 1)⟩ = true := by
        simp [leavesAt]
      have hpop := hb.compiles_emit .pop
      have hrest' := ih (hpop.ready hb) hrest
      rw [List.map_cons, List.cons_append, dropLocals, if_pos hleaves]
      exact hpop.trans hrest'

/-- What has been compiled in a scope of its own, with the code that leaves the scope. -/
theorem Compiles.closeScope {q : Place} {depth level : Nat} {b b' : Builder}
    (h : Located q depth level b) {s : Stmt} {ts : List Token} {constants : List Value}
    {items : List Item}
    (hcompiles : b.beginScope.Compiles ts constants items (q.opened.after s).locals b') :
    b.Compiles ts constants (items ++ leave q.scope (s.scopeAfter false q.scope)) q.locals
      b'.endScope := by
  have hready := hcompiles.ready h.opened.ready
  have hdepth : b'.scopeDepth = q.scopes + 1 :=
    hcompiles.depth.trans (congrArg (· + 1) h.scopes)
  have hlocals :
      b'.locals = (s.declared []).map (fun x => ⟨x, some (q.scopes + 1)⟩) ++ q.locals := by
    rw [hcompiles.locals, q.opened.after_local q.top_opened]
    rfl
  have hcount : (s.scopeAfter false q.scope).length - q.scope.length = (s.declared []).length := by
    rw [s.length_scopeAfter]
    omega
  have hstay : ∀ entry ∈ q.locals, leavesAt q.scopes entry = false := by
    intro entry hentry
    rcases List.mem_append.mp hentry with hhere | houter
    · obtain ⟨x, -, rfl⟩ := List.mem_map.mp hhere
      simp [leavesAt]
    · obtain ⟨d, hd, hentry⟩ := h.enclosing entry houter
      simp [leavesAt, hentry]
      omega
  have hend : b'.endScope = dropLocals ((s.declared []).map (fun x => ⟨x, some (q.scopes + 1)⟩) ++
      q.locals) { b' with scopeDepth := q.scopes } := by
    rw [← hlocals, endScope, hdepth, Nat.add_sub_cancel]
  have hclosing : Ready { b' with scopeDepth := q.scopes } :=
    ⟨⟨hready.clean.errors, hready.clean.calm⟩, hready.ahead, hready.room⟩
  have hdrop := compiles_dropLocals hclosing (s.declared []) q.locals hstay
  have hall : b.Compiles ts constants items b'.locals { b' with scopeDepth := q.scopes } :=
    ⟨⟨hclosing.clean, hcompiles.took.upcoming, hcompiles.took.previous, hcompiles.took.nesting⟩,
      hcompiles.pool, hcompiles.room, hcompiles.wrote, rfl, h.scopes.symm⟩
  have hwhole := hall.trans hdrop
  rw [List.append_nil, List.append_nil] at hwhole
  rw [leave, hcount, hend]
  exact hwhole

theorem Settles.closeScope {q : Place} {depth level : Nat} {b b' : Builder}
    (hb : Located q depth level b) {s : Stmt} {fits : Prop} {ts : List Token}
    {constants : List Value} {items : List Item}
    (h : b.beginScope.Settles fits ts constants items (q.opened.after s).locals b') :
    b.Settles fits ts constants (items ++ leave q.scope (s.scopeAfter false q.scope)) q.locals
      b'.endScope :=
  h.imp (And.imp_right (Compiles.closeScope hb)) (And.imp_right (Stationary.endScope b').keeps)

end StackScript.Builder
