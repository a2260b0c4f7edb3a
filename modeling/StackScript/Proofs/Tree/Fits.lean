import Mathlib.Tactic.Common
import StackScript.Proofs.Pool
import StackScript.Proofs.Builder.Writing

/-!
The limits of an expression, for the place at which it stands. An expression fits when
its parts do, each at its own place: the parts further right find a larger pool, and all
but the leftmost are read on a deeper level.
-/

namespace StackScript.Tree

open Builder (nestingMax localsMax distanceMax)

/-- Whether an expression can be compiled: inside `level` levels, with `pool` before it
and `final` in the end, while the locals named in `pending` cannot be read. -/
def Expr.Fits (level : Nat) (pool final : List Value) (pending : List String) (scope : Scope)
    (e : Expr) : Prop :=
  level + e.levels ≤ nestingMax ∧ (grow pool (e.constants scope)).length ≤ Chunk.constantsMax ∧
    (e.code final scope).all Item.fits = true ∧ ∀ x ∈ pending, e.mentions x = false

theorem Expr.levels_pos (e : Expr) : 0 < e.levels := by
  induction e <;> simp only [Expr.levels] <;> omega

namespace Expr

variable {level : Nat} {pool final : List Value} {pending : List String} {scope : Scope}

theorem fits_literal {e : Expr} (hlevels : e.levels = 1)
    (hcode : (e.code final scope).all Item.fits = true) (hmentions : ∀ x, e.mentions x = false) :
    e.Fits level pool final pending scope ↔
      level < nestingMax ∧ (grow pool (e.constants scope)).length ≤ Chunk.constantsMax := by
  simp only [Fits, hlevels, hcode, hmentions]
  constructor
  · rintro ⟨hlevel, hpool, -, -⟩
    exact ⟨hlevel, hpool⟩
  · rintro ⟨hlevel, hpool⟩
    exact ⟨hlevel, hpool, trivial, fun _ _ => trivial⟩

theorem fits_access (final : List Value) (scope : Scope) (onLocal onGlobal : Opcode) (x : String) :
    (access final scope onLocal onGlobal x).fits = true := by
  unfold access
  split <;> rfl

theorem fits_name {x : String} :
    (Expr.name x).Fits level pool final pending scope ↔ level < nestingMax ∧ x ∉ pending ∧
      (grow pool (scope.nameConstant x)).length ≤ Chunk.constantsMax := by
  have hpending : (∀ y ∈ pending, (Expr.name x).mentions y = false) ↔ x ∉ pending := by
    simp only [mentions, decide_eq_false_iff_not]
    exact ⟨fun h hx => h x hx rfl, fun h y hy hyx => h (hyx ▸ hy)⟩
  simp only [Fits, levels, constants, code, hpending, List.all_cons, List.all_nil, fits_access,
    Bool.and_true, true_and]
  constructor
  · rintro ⟨hlevel, hpool, hx⟩
    exact ⟨hlevel, hx, hpool⟩
  · rintro ⟨hlevel, hx, hpool⟩
    exact ⟨hlevel, hpool, hx⟩

theorem fits_assign {x : String} {value : Expr} :
    (Expr.assign x value).Fits level pool final pending scope ↔
      (x ∉ pending ∧ (grow pool (scope.nameConstant x)).length ≤ Chunk.constantsMax) ∧
        value.Fits (level + 1) (grow pool (scope.nameConstant x)) final pending scope := by
  have hpending : (∀ y ∈ pending, (Expr.assign x value).mentions y = false) ↔
      x ∉ pending ∧ ∀ y ∈ pending, value.mentions y = false := by
    simp only [mentions, Bool.or_eq_false_iff, decide_eq_false_iff_not]
    constructor
    · exact fun h => ⟨fun hx => (h x hx).1 rfl, fun y hy => (h y hy).2⟩
    · exact fun h y hy => ⟨fun hyx => h.1 (hyx ▸ hy), h.2 y hy⟩
  have hroom := length_le_grow (grow pool (scope.nameConstant x)) (value.constants scope)
  simp only [Fits, levels, constants, code, hpending, grow_append, List.all_append, List.all_cons,
    List.all_nil, fits_access, Bool.and_true]
  constructor
  · rintro ⟨hlevel, hpool, hcode, hx, hvalue⟩
    exact ⟨⟨hx, by omega⟩, by omega, hpool, hcode, hvalue⟩
  · rintro ⟨⟨hx, -⟩, hlevel, hpool, hcode, hvalue⟩
    exact ⟨by omega, hpool, hcode, hx, hvalue⟩

theorem fits_unary {op : UnaryOp} {inner : Expr} :
    (Expr.unary op inner).Fits level pool final pending scope ↔
      inner.Fits (level + 1) pool final pending scope := by
  simp only [Fits, levels, constants, code, mentions, List.all_append, List.all_cons, List.all_nil,
    Item.fits, Bool.and_true]
  have : level + (inner.levels + 1) ≤ nestingMax ↔ level + 1 + inner.levels ≤ nestingMax := by omega
  rw [this]

theorem fits_group {inner : Expr} :
    (Expr.group inner).Fits level pool final pending scope ↔
      inner.Fits (level + 1) pool final pending scope := by
  simp only [Fits, levels, constants, code, mentions]
  have : level + (inner.levels + 1) ≤ nestingMax ↔ level + 1 + inner.levels ≤ nestingMax := by omega
  rw [this]

/-- Two operands, of which the right one stands one level deeper, with some more code. -/
theorem fits_operands {e l r : Expr} {more : Prop}
    (hlevels : e.levels = max l.levels (r.levels + 1))
    (hconstants : e.constants scope = l.constants scope ++ r.constants scope)
    (hmentions : ∀ x, e.mentions x = (l.mentions x || r.mentions x))
    (hcode : (e.code final scope).all Item.fits = true ↔ (l.code final scope).all Item.fits = true ∧
      (r.code final scope).all Item.fits = true ∧ more) :
    e.Fits level pool final pending scope ↔ l.Fits level pool final pending scope ∧
      r.Fits (level + 1) (grow pool (l.constants scope)) final pending scope ∧ more := by
  have hroom := length_le_grow (grow pool (l.constants scope)) (r.constants scope)
  have hpending : (∀ x ∈ pending, e.mentions x = false) ↔
      (∀ x ∈ pending, l.mentions x = false) ∧ ∀ x ∈ pending, r.mentions x = false := by
    simp only [hmentions, Bool.or_eq_false_iff]
    exact forall₂_and
  have hlevel :
      level + e.levels ≤ nestingMax ↔
        level + l.levels ≤ nestingMax ∧ level + 1 + r.levels ≤ nestingMax := by
    omega
  simp only [Fits, hconstants, grow_append, hcode, hpending, hlevel]
  constructor
  · rintro ⟨⟨hl, hr⟩, hpool, ⟨hlcode, hrcode, hmore⟩, hlpending, hrpending⟩
    exact ⟨⟨hl, by omega, hlcode, hlpending⟩, ⟨hr, hpool, hrcode, hrpending⟩, hmore⟩
  · rintro ⟨⟨hl, -, hlcode, hlpending⟩, ⟨hr, hpool, hrcode, hrpending⟩, hmore⟩
    exact ⟨⟨hl, hr⟩, hpool, ⟨hlcode, hrcode, hmore⟩, hlpending, hrpending⟩

theorem fits_binary {op : BinaryOp} {l r : Expr} :
    (Expr.binary op l r).Fits level pool final pending scope ↔
      l.Fits level pool final pending scope ∧
        r.Fits (level + 1) (grow pool (l.constants scope)) final pending scope := by
  have hops : (op.opcodes.map Item.plain).all Item.fits = true := by
    simp [Item.fits]
  have hwhole : (Expr.binary op l r).Fits level pool final pending scope ↔
      l.Fits level pool final pending scope ∧
        r.Fits (level + 1) (grow pool (l.constants scope)) final pending scope ∧ True :=
    fits_operands rfl rfl (fun _ => rfl) (by simp [code, hops])
  rwa [and_true] at hwhole

theorem fits_and {l r : Expr} :
    (Expr.and l r).Fits level pool final pending scope ↔
      l.Fits level pool final pending scope ∧
        r.Fits (level + 1) (grow pool (l.constants scope)) final pending scope ∧
        codeSize (.plain .pop :: r.code final scope) ≤ distanceMax := by
  apply fits_operands rfl rfl (fun _ => rfl)
  simp [code, Item.fits, and_comm]

theorem fits_or {l r : Expr} :
    (Expr.or l r).Fits level pool final pending scope ↔
      l.Fits level pool final pending scope ∧
        r.Fits (level + 1) (grow pool (l.constants scope)) final pending scope ∧
        codeSize (.plain .pop :: r.code final scope) ≤ distanceMax := by
  have hover : 3 ≤ distanceMax := by decide
  apply fits_operands rfl rfl (fun _ => rfl)
  simp [code, Item.fits, hover, and_comm]

end Expr

/-- An expression that is absent always fits. -/
def OptionalFits (level : Nat) (pool final : List Value) (pending : List String) (scope : Scope) :
    Option Expr → Prop
  | none => True
  | some e => e.Fits level pool final pending scope

section OptionalFits

variable {level : Nat} {pool final : List Value} {pending : List String} {scope : Scope}
  {e : Option Expr}

theorem OptionalFits.of_parts (hlevel : level + optionalLevels e ≤ nestingMax)
    (hpool : (grow pool (optionalConstants scope e)).length ≤ Chunk.constantsMax)
    (hcode : ∀ code ∈ e.map (Expr.code final scope), code.all Item.fits = true)
    (hpending : ∀ x ∈ pending, e.any (Expr.mentions x) = false) :
    OptionalFits level pool final pending scope e := by
  cases e with
  | none => trivial
  | some e => exact ⟨hlevel, hpool, hcode _ rfl, hpending⟩

theorem OptionalFits.levels (h : OptionalFits level pool final pending scope e)
    (hlevel : level ≤ nestingMax) : level + optionalLevels e ≤ nestingMax := by
  cases e with
  | none => exact hlevel
  | some e => exact h.1

theorem OptionalFits.room (h : OptionalFits level pool final pending scope e)
    (hpool : pool.length ≤ Chunk.constantsMax) :
    (grow pool (optionalConstants scope e)).length ≤ Chunk.constantsMax := by
  cases e with
  | none => exact hpool
  | some e => exact h.2.1

theorem OptionalFits.code (h : OptionalFits level pool final pending scope e) :
    ∀ code ∈ e.map (Expr.code final scope), code.all Item.fits = true := by
  cases e with
  | none => simp
  | some e => simpa using h.2.2.1

theorem OptionalFits.mentions (h : OptionalFits level pool final pending scope e) :
    ∀ x ∈ pending, e.any (Expr.mentions x) = false := by
  cases e with
  | none => simp
  | some e => exact h.2.2.2

end OptionalFits

/-- Whether a statement or chain can be compiled, apart from the levels it needs: with
`pool` before it and `final` in the end, `here` in the innermost scope and `scope` in all. -/
structure Stmt.FitsFlat (pool final : List Value) (top : Bool) (here : List String) (scope : Scope)
    (s : Stmt) : Prop where
  names : s.wellScoped top here = true
  locals : s.mostLocals top scope.length ≤ localsMax
  pool : (grow pool (s.constants top scope)).length ≤ Chunk.constantsMax
  code : (s.code final top scope).all Item.fits = true

/-- Whether a statement or chain can be compiled inside `level` levels. -/
def Stmt.Fits (level : Nat) (pool final : List Value) (top : Bool) (here : List String)
    (scope : Scope) (s : Stmt) : Prop :=
  level + s.levels ≤ nestingMax ∧ s.FitsFlat pool final top here scope

/-- Whether the first clause of a `for` can be compiled. -/
def Stmt.ClauseFits (level : Nat) (pool final : List Value) (scope : Scope) (s : Stmt) : Prop :=
  level + s.clauseLevels ≤ nestingMax ∧ s.FitsFlat pool final false [] scope

namespace Stmt

variable {level : Nat} {pool final : List Value} {top : Bool} {here : List String} {scope : Scope}

theorem scopeAfter_local (s : Stmt) (here : List String) (outer : Scope) :
    s.scopeAfter false (here ++ outer) = s.declared here ++ outer := by
  induction s generalizing here with
  | seq first rest ihf ihr => simp only [scopeAfter, declared, ihf, ihr]
  | _ => simp [scopeAfter, declared]

theorem length_scopeAfter (s : Stmt) (scope : Scope) :
    (s.scopeAfter false scope).length = scope.length + (s.declared []).length := by
  have hafter := s.scopeAfter_local [] scope
  rw [List.nil_append] at hafter
  rw [hafter, List.length_append, Nat.add_comm]

theorem scopeAfter_top (s : Stmt) (scope : Scope) : s.scopeAfter true scope = scope := by
  induction s generalizing scope with
  | seq first rest ihf ihr => simp only [scopeAfter, ihf, ihr]
  | _ => simp [scopeAfter]

theorem le_mostLocals (s : Stmt) (top : Bool) (count : Nat) : count ≤ s.mostLocals top count := by
  induction s generalizing top count with
  | skip | print _ | expression _ => exact Nat.le_refl count
  | var x value =>
      simp only [mostLocals]
      split <;> omega
  | seq first rest ihf ihr => exact (ihf top count).trans (Nat.le_max_left ..)
  | block body ih => exact ih false count
  | branch _ yes no ihy ihn => exact (ihy top count).trans (Nat.le_max_left ..)
  | whileLoop _ body ih => exact ih top count
  | forLoop first _ _ body ihf ihb => exact (ihf false count).trans (Nat.le_max_left ..)

/-- What a statement leaves in scope was in scope at once. -/
theorem length_scopeAfter_le (s : Stmt) (top : Bool) (scope : Scope) :
    (s.scopeAfter top scope).length ≤ s.mostLocals top scope.length := by
  induction s generalizing scope with
  | var x value =>
      simp only [scopeAfter, mostLocals]
      split <;> simp
  | seq first rest ihf ihr =>
      have hcount : (first.scopeAfter top scope).length =
          scope.length + if top then 0 else (first.declared []).length := by
        cases top with
        | true => simp [scopeAfter_top]
        | false => simpa using first.length_scopeAfter scope
      simp only [scopeAfter, mostLocals, ← hcount]
      exact (ihr _).trans (Nat.le_max_right ..)
  | _ => exact le_mostLocals _ top scope.length

/-- At the top level it does not matter which names have been declared. -/
theorem wellScoped_top (s : Stmt) (here there : List String) :
    s.wellScoped true here = s.wellScoped true there := by
  induction s generalizing here there with
  | seq first rest ihf ihr =>
      simp only [wellScoped]
      rw [ihf here there, ihr (first.declared here) (first.declared there)]
  | branch _ yes no ihy ihn =>
      simp only [wellScoped]
      rw [ihy here there, ihn here there]
  | whileLoop _ body ih =>
      simp only [wellScoped]
      exact ih here there
  | _ => simp [wellScoped]

theorem fits_skip (hlevel : level ≤ nestingMax) (hpool : pool.length ≤ Chunk.constantsMax)
    (hscope : scope.length ≤ localsMax) : Stmt.skip.Fits level pool final top here scope :=
  ⟨hlevel, rfl, hscope, hpool, rfl⟩

theorem fits_seq {first rest : Stmt} :
    (Stmt.seq first rest).Fits level pool final top here scope ↔
      first.Fits level pool final top here scope ∧
        rest.Fits level (grow pool (first.constants top scope)) final top (first.declared here)
          (first.scopeAfter top scope) := by
  have hroom := length_le_grow (grow pool (first.constants top scope))
    (rest.constants top (first.scopeAfter top scope))
  have hcount : (first.scopeAfter top scope).length =
      scope.length + if top then 0 else (first.declared []).length := by
    cases top with
    | true => simp [scopeAfter_top]
    | false => simpa using first.length_scopeAfter scope
  constructor
  · rintro ⟨hlevel, hscoped, hlocals, hpool, hcode⟩
    simp only [levels, wellScoped, mostLocals, constants, code, grow_append, List.all_append,
      Bool.and_eq_true] at hlevel hscoped hlocals hpool hcode
    rw [← hcount] at hlocals
    exact ⟨⟨by omega, hscoped.1, by omega, by omega, hcode.1⟩,
      ⟨by omega, hscoped.2, by omega, hpool, hcode.2⟩⟩
  · rintro ⟨⟨hlevel, hscoped, hlocals, hpool, hcode⟩, ⟨hlevel', hscoped', hlocals', hpool', hcode'⟩⟩
    refine ⟨?_, ?_, ?_, ?_, ?_⟩
    · simp only [levels]
      omega
    · simp [wellScoped, hscoped, hscoped']
    · simp only [mostLocals]
      rw [← hcount]
      omega
    · simpa [constants] using hpool'
    · simp [code, hcode, hcode']

/-- The code of an initial value has no jump that its expression does not have. -/
theorem all_fits_initial {value : Option Expr} :
    ((value.getD .nil).code final scope).all Item.fits = true ↔
      ∀ code ∈ value.map (Expr.code final scope), code.all Item.fits = true := by
  cases value <;> simp [Expr.code, Item.fits]

theorem fits_global {x : String} {value : Option Expr} (hlevel : level ≤ nestingMax)
    (hscope : scope.length ≤ localsMax) :
    (Stmt.var x value).Fits level pool final true here scope ↔
      (grow pool [.string x]).length ≤ Chunk.constantsMax ∧
        OptionalFits level (grow pool [.string x]) final [] scope value := by
  have hroom := length_le_grow (grow pool [.string x]) (optionalConstants scope value)
  have hcode : ((Stmt.var x value).code final true scope).all Item.fits = true ↔
      ((value.getD .nil).code final scope).all Item.fits = true := by
    simp [code, Item.fits]
  constructor
  · rintro ⟨hlevels, -, -, hpool, hfits⟩
    simp only [constants, if_true, grow_append] at hpool
    exact ⟨hroom.trans hpool,
      OptionalFits.of_parts hlevels hpool (all_fits_initial.mp (hcode.mp hfits)) (by simp)⟩
  · rintro ⟨hname, hvalue⟩
    refine ⟨hvalue.levels hlevel, by simp [wellScoped], hscope, ?_, ?_⟩
    · simp only [constants, if_true, grow_append]
      exact hvalue.room hname
    · exact hcode.mpr (all_fits_initial.mpr hvalue.code)

theorem fits_local {x : String} {value : Option Expr} (hlevel : level ≤ nestingMax)
    (hpool : pool.length ≤ Chunk.constantsMax) :
    (Stmt.var x value).Fits level pool final false here scope ↔
      (x ∉ here ∧ scope.length < localsMax) ∧ OptionalFits level pool final [x] scope value := by
  have hnames : (Stmt.var x value).wellScoped false here = true ↔
      x ∉ here ∧ value.any (Expr.mentions x) = false := by
    simp [wellScoped]
  have hcode : ((Stmt.var x value).code final false scope).all Item.fits = true ↔
      ((value.getD .nil).code final scope).all Item.fits = true := by
    simp [code]
  constructor
  · rintro ⟨hlevels, hscoped, hlocals, hroom, hfits⟩
    obtain ⟨hx, hmentions⟩ := hnames.mp hscoped
    refine ⟨⟨hx, hlocals⟩, OptionalFits.of_parts hlevels ?_ (all_fits_initial.mp (hcode.mp hfits))
      ?_⟩
    · simpa [constants] using hroom
    · simpa using hmentions
  · rintro ⟨⟨hx, hlocals⟩, hvalue⟩
    refine ⟨hvalue.levels hlevel, hnames.mpr ⟨hx, ?_⟩, hlocals, ?_, ?_⟩
    · exact hvalue.mentions x (by simp)
    · simpa [constants] using hvalue.room hpool
    · exact hcode.mpr (all_fits_initial.mpr hvalue.code)

/-- A statement that does one thing with the value of an expression. -/
theorem fits_simple {s : Stmt} {e : Expr} {op : Opcode} (hlevels : s.levels = e.levels + 1)
    (hnames : s.wellScoped top here = true) (hlocals : s.mostLocals top scope.length = scope.length)
    (hconstants : s.constants top scope = e.constants scope)
    (hcode : s.code final top scope = e.code final scope ++ [.plain op])
    (hscope : scope.length ≤ localsMax) :
    s.Fits level pool final top here scope ↔ e.Fits (level + 1) pool final [] scope := by
  have hall : (s.code final top scope).all Item.fits = (e.code final scope).all Item.fits := by
    simp [hcode, Item.fits]
  constructor
  · rintro ⟨hlevel, -, -, hpool, hfits⟩
    exact ⟨by omega, hconstants ▸ hpool, hall ▸ hfits, by simp⟩
  · rintro ⟨hlevel, hpool, hfits, -⟩
    exact ⟨by omega, hnames, by omega, hconstants ▸ hpool, hall ▸ hfits⟩

theorem all_fits_leave (outer inner : Scope) : (leave outer inner).all Item.fits = true := by
  simp [leave, Item.fits]

theorem fits_block {body : Stmt} :
    (Stmt.block body).Fits level pool final top here scope ↔
      body.Fits (level + 1) pool final false [] scope := by
  constructor
  · rintro ⟨hlevel, hscoped, hlocals, hpool, hcode⟩
    simp only [levels] at hlevel
    simp only [code, List.all_append, Bool.and_eq_true] at hcode
    exact ⟨by omega, hscoped, hlocals, hpool, hcode.1⟩
  · rintro ⟨hlevel, hscoped, hlocals, hpool, hcode⟩
    refine ⟨?_, hscoped, hlocals, hpool, by simp [code, hcode, all_fits_leave]⟩
    simp only [levels]
    omega

theorem fits_branch {condition : Expr} {yes no : Stmt} :
    (Stmt.branch condition yes no).Fits level pool final top here scope ↔
      condition.Fits (level + 1) pool final [] scope ∧
        yes.Fits (level + 1) (grow pool (condition.constants scope)) final top here scope ∧
        1 + codeSize (yes.code final top scope) + 3 ≤ distanceMax ∧
        no.Fits (level + 1)
          (grow (grow pool (condition.constants scope)) (yes.constants top scope)) final top here
          scope ∧
        1 + codeSize (no.code final top scope) ≤ distanceMax := by
  have hroom := length_le_grow (grow pool (condition.constants scope)) (yes.constants top scope)
  have hroom' := length_le_grow (grow (grow pool (condition.constants scope))
    (yes.constants top scope)) (no.constants top scope)
  constructor
  · rintro ⟨hlevel, hnames, hlocals, hpool, hcode⟩
    simp only [levels, mostLocals] at hlevel hlocals
    simp only [wellScoped, Bool.and_eq_true] at hnames
    simp only [constants, grow_append] at hpool
    simp only [code, List.all_append, List.all_cons, List.all_nil, Item.fits, codeSize_cons,
      codeSize_append, codeSize_nil, Item.size, Bool.and_eq_true, decide_eq_true_eq] at hcode
    obtain ⟨hcondition, ⟨hthen, ⟨-, hyes⟩, helse, -⟩, -, hno⟩ := hcode
    exact ⟨⟨by omega, by omega, hcondition, by simp⟩,
      ⟨by omega, hnames.1, by omega, by omega, hyes⟩, by omega,
      ⟨by omega, hnames.2, by omega, hpool, hno⟩, helse⟩
  · rintro ⟨⟨hlevelC, -, hcondition, -⟩, ⟨hlevelY, hnamesY, hlocalsY, -, hyes⟩, hthen,
      ⟨hlevelN, hnamesN, hlocalsN, hpool, hno⟩, helse⟩
    refine ⟨?_, ?_, ?_, ?_, ?_⟩
    · simp only [levels]
      omega
    · simp [wellScoped, hnamesY, hnamesN]
    · simp only [mostLocals]
      omega
    · simpa [constants] using hpool
    · simp only [code, List.all_append, List.all_cons, List.all_nil, Item.fits, codeSize_cons,
        codeSize_append, codeSize_nil, Item.size, hcondition, hyes, hno, Bool.and_true,
        Bool.true_and, Bool.and_eq_true, decide_eq_true_eq]
      omega

theorem fits_while {condition : Expr} {body : Stmt} :
    (Stmt.whileLoop condition body).Fits level pool final top here scope ↔
      condition.Fits (level + 1) pool final [] scope ∧
        body.Fits (level + 1) (grow pool (condition.constants scope)) final top here scope ∧
        codeSize (condition.code final scope) + 4 + codeSize (body.code final top scope) + 3 ≤
          distanceMax ∧
        1 + (codeSize (body.code final top scope) + 3) ≤ distanceMax := by
  have hroom := length_le_grow (grow pool (condition.constants scope)) (body.constants top scope)
  constructor
  · rintro ⟨hlevel, hnames, hlocals, hpool, hcode⟩
    simp only [levels, wellScoped, mostLocals, constants, grow_append]
      at hlevel hnames hlocals hpool
    simp only [code, loopCode, stepCode, conditionSize, List.all_append, List.all_cons,
      List.all_nil, Item.fits, codeSize_cons, codeSize_append, codeSize_nil, Item.size,
      Bool.and_eq_true, decide_eq_true_eq] at hcode
    obtain ⟨⟨hcondition, hexit, -, hbody, hback, -⟩, -⟩ := hcode
    exact ⟨⟨by omega, by omega, hcondition, by simp⟩, ⟨by omega, hnames, hlocals, hpool, hbody⟩,
      hback, by omega⟩
  · rintro ⟨⟨hlevelC, -, hcondition, -⟩, ⟨hlevelB, hnames, hlocals, hpool, hbody⟩, hback, hexit⟩
    refine ⟨?_, hnames, hlocals, ?_, ?_⟩
    · simp only [levels]
      omega
    · simpa [constants] using hpool
    · simp only [code, loopCode, stepCode, conditionSize, List.all_append, List.all_cons,
        List.all_nil, Item.fits, codeSize_cons, codeSize_append, codeSize_nil, Item.size,
        hcondition, hbody, Bool.and_true, Bool.true_and, Bool.and_eq_true, decide_eq_true_eq]
      omega

theorem clauseFits_skip (hlevel : level ≤ nestingMax) (hpool : pool.length ≤ Chunk.constantsMax)
    (hscope : scope.length ≤ localsMax) : Stmt.skip.ClauseFits level pool final scope :=
  ⟨hlevel, rfl, hscope, hpool, rfl⟩

theorem clauseFits_var {x : String} {value : Option Expr} :
    (Stmt.var x value).ClauseFits level pool final scope ↔
      (Stmt.var x value).Fits level pool final false [] scope :=
  Iff.rfl

theorem clauseFits_expression {e : Expr} (hscope : scope.length ≤ localsMax) :
    (Stmt.expression e).ClauseFits level pool final scope ↔ e.Fits level pool final [] scope := by
  constructor
  · rintro ⟨hlevel, -, -, hpool, hcode⟩
    exact ⟨hlevel, hpool, by simpa [code, Item.fits] using hcode, by simp⟩
  · rintro ⟨hlevel, hpool, hcode, -⟩
    exact ⟨hlevel, rfl, hscope, hpool, by simp [code, hcode, Item.fits]⟩

end Stmt

/-- The increment of a `for` as it stands before the body. -/
def incrementCode (before : Nat) : Option (List Item) → List Item
  | none => []
  | some code =>
      .jump .jump (codeSize code + 4) :: code ++
        [.plain .pop, .jump .loop (before + 3 + codeSize code + 4)]

/-- How far the body of a `for` jumps back. -/
def backDistance (before : Nat) (body : List Item) : Option (List Item) → Nat
  | none => before + codeSize body + 3
  | some code => codeSize code + 4 + codeSize body + 3

theorem stepCode_eq (before : Nat) (increment : Option (List Item)) (body : List Item) :
    stepCode before increment body = incrementCode before increment ++
      (body ++ [.jump .loop (backDistance before body increment)]) := by
  cases increment <;> simp [stepCode, incrementCode, backDistance, Item.size]

/-- Whether the jump that leaves a loop fits, if there is one. -/
def ExitFits (rest : Nat) (condition : Option (List Item)) : Prop :=
  condition.isSome → 1 + rest ≤ distanceMax

theorem all_fits_loopCode {condition : Option (List Item)} {rest : List Item} :
    (loopCode condition rest).all Item.fits = true ↔
      (∀ code ∈ condition, code.all Item.fits = true) ∧ rest.all Item.fits = true ∧
        ExitFits (codeSize rest) condition := by
  cases condition with
  | none => simp [loopCode, ExitFits]
  | some code =>
      simp only [loopCode, List.all_append, List.all_cons, List.all_nil, Item.fits, ExitFits,
        Bool.and_eq_true, decide_eq_true_eq]
      constructor
      · rintro ⟨⟨hcode, hexit, -, hrest⟩, -⟩
        exact ⟨by simpa using hcode, hrest, fun _ => hexit⟩
      · rintro ⟨hcode, hrest, hexit⟩
        exact ⟨⟨hcode code rfl, hexit rfl, trivial, hrest⟩, trivial, trivial⟩

theorem all_fits_stepCode {before : Nat} {increment : Option (List Item)} {body : List Item} :
    (stepCode before increment body).all Item.fits = true ↔
      (incrementCode before increment).all Item.fits = true ∧ body.all Item.fits = true ∧
        backDistance before body increment ≤ distanceMax := by
  simp [stepCode_eq, Item.fits]

theorem code_fits_of_incrementCode {before : Nat} {increment : Option (List Item)}
    (h : (incrementCode before increment).all Item.fits = true) :
    ∀ code ∈ increment, code.all Item.fits = true := by
  rintro code rfl
  simp only [incrementCode, List.all_append, List.all_cons, Bool.and_eq_true] at h
  exact h.1.2

namespace Stmt

theorem fits_for {level : Nat} {pool final : List Value} {top : Bool} {here : List String}
    {scope : Scope} {first body : Stmt} {condition increment : Option Expr} :
    let inner := first.scopeAfter false scope
    let pool₁ := grow pool (first.constants false scope)
    let pool₂ := grow pool₁ (optionalConstants inner condition)
    let pool₃ := grow pool₂ (optionalConstants inner increment)
    let test := condition.map (Expr.code final inner)
    let advance := increment.map (Expr.code final inner)
    (Stmt.forLoop first condition increment body).Fits level pool final top here scope ↔
      first.ClauseFits (level + 1) pool final scope ∧
        OptionalFits (level + 1) pool₁ final [] inner condition ∧
        (OptionalFits (level + 1) pool₂ final [] inner increment ∧
          (incrementCode (conditionSize test) advance).all Item.fits = true) ∧
        body.Fits (level + 1) pool₃ final false (first.declared []) inner ∧
        backDistance (conditionSize test) (body.code final false inner) advance ≤ distanceMax ∧
        ExitFits (codeSize (incrementCode (conditionSize test) advance) +
          (codeSize (body.code final false inner) + 3)) test := by
  intro inner pool₁ pool₂ pool₃ test advance
  have hroom₁ : pool₁.length ≤ pool₂.length := length_le_grow _ _
  have hroom₂ : pool₂.length ≤ pool₃.length := length_le_grow _ _
  have hroom₃ : pool₃.length ≤ (grow pool₃ (body.constants false inner)).length :=
    length_le_grow _ _
  have hcount : inner.length = scope.length + (first.declared []).length :=
    first.length_scopeAfter scope
  have hsize : codeSize (stepCode (conditionSize test) advance (body.code final false inner)) =
      codeSize (incrementCode (conditionSize test) advance) +
        (codeSize (body.code final false inner) + 3) := by
    rw [stepCode_eq]
    simp [Item.size]
  have hwhole : ((Stmt.forLoop first condition increment body).code final top scope).all
      Item.fits = true ↔ (first.code final false scope).all Item.fits = true ∧
        (loopCode test (stepCode (conditionSize test) advance
          (body.code final false inner))).all Item.fits = true := by
    simp only [code, List.all_append, all_fits_leave, Bool.and_true, Bool.and_eq_true]
    exact Iff.rfl
  rw [all_fits_loopCode, all_fits_stepCode, hsize] at hwhole
  constructor
  · rintro ⟨hlevel, hnames, hlocals, hpool, hcode⟩
    simp only [levels, mostLocals, ← hcount] at hlevel hlocals
    simp only [wellScoped, Bool.and_eq_true] at hnames
    simp only [constants, grow_append] at hpool
    obtain ⟨hfirst, htest, ⟨hadvance, hbody, hback⟩, hexit⟩ := hwhole.mp hcode
    have hpool₃ : (grow pool₃ (body.constants false inner)).length ≤ Chunk.constantsMax := hpool
    have hle₃ : pool₃.length ≤ Chunk.constantsMax := hroom₃.trans hpool₃
    have hle₂ : pool₂.length ≤ Chunk.constantsMax := hroom₂.trans hle₃
    refine ⟨⟨by omega, hnames.1, by omega, hroom₁.trans hle₂, hfirst⟩,
      OptionalFits.of_parts (by omega) hle₂ htest (by simp),
      ⟨OptionalFits.of_parts (by omega) hle₃ (code_fits_of_incrementCode hadvance) (by simp),
        hadvance⟩,
      ⟨by omega, hnames.2, by omega, hpool₃, hbody⟩, hback, hexit⟩
  · rintro ⟨⟨hlevelF, hnamesF, hlocalsF, -, hfirst⟩, hcondition, ⟨hincrement, hadvance⟩,
      ⟨hlevelB, hnamesB, hlocalsB, hpool, hbody⟩, hback, hexit⟩
    have hlevelC := hcondition.levels (by omega)
    have hlevelI := hincrement.levels (by omega)
    refine ⟨?_, ?_, ?_, ?_, ?_⟩
    · simp only [levels]
      omega
    · simp [wellScoped, hnamesF, hnamesB]
    · simp only [mostLocals, ← hcount]
      omega
    · simp only [constants, grow_append]
      exact hpool
    · exact hwhole.mpr ⟨hfirst, hcondition.code, ⟨hadvance, hbody, hback⟩, hexit⟩

end Stmt

end StackScript.Tree
