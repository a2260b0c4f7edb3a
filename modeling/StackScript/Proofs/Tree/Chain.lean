import StackScript.Proofs.Tree.Fits
import StackScript.Tree.Grammar

/-!
Programs one behind the other. At the top level nothing of the first one is in scope in the
second one, so the two need what each of them needs on its own, and a common pool.
-/

namespace StackScript.Tree

namespace Stmt

/-- A chain that goes on with another one where it ends. -/
def followedBy : Stmt → Stmt → Stmt
  | .seq first more, rest => .seq first (more.followedBy rest)
  | _, rest => rest

/-- A chain of declarations and statements. -/
def IsChain : Stmt → Prop
  | .skip => True
  | .seq _ rest => rest.IsChain
  | _ => False

variable {s rest : Stmt}

theorem constants_followedBy (h : s.IsChain) (scope : Scope) :
    (s.followedBy rest).constants true scope =
      s.constants true scope ++ rest.constants true scope := by
  induction s with
  | skip => rfl
  | seq first more _ ih =>
      have hscope := first.scopeAfter_top scope
      rw [followedBy, constants, constants, hscope, ih h, List.append_assoc]
  | _ => cases h

theorem code_followedBy (h : s.IsChain) (pool : List Value) (scope : Scope) :
    (s.followedBy rest).code pool true scope =
      s.code pool true scope ++ rest.code pool true scope := by
  induction s with
  | skip => rfl
  | seq first more _ ih =>
      have hscope := first.scopeAfter_top scope
      rw [followedBy, code, code, hscope, ih h, List.append_assoc]
  | _ => cases h

theorem pool_followedBy (h : s.IsChain) :
    (s.followedBy rest).pool = grow s.pool (rest.constants true []) := by
  rw [pool_eq, pool_eq, constants_followedBy h, grow_append]

theorem wellScoped_followedBy (h : s.IsChain) (here : List String) :
    (s.followedBy rest).wellScoped true here =
      (s.wellScoped true here && rest.wellScoped true here) := by
  induction s generalizing here with
  | skip => rfl
  | seq first more _ ih =>
      have hnames := rest.wellScoped_top (first.declared here) here
      rw [followedBy, wellScoped, wellScoped, ih h, Bool.and_assoc, hnames]
  | _ => cases h

theorem mostLocals_followedBy (h : s.IsChain) (count : Nat) :
    (s.followedBy rest).mostLocals true count =
      max (s.mostLocals true count) (rest.mostLocals true count) := by
  induction s with
  | skip => exact (Nat.max_eq_right (rest.le_mostLocals true count)).symm
  | seq first more _ ih =>
      rw [followedBy, mostLocals, mostLocals, if_pos rfl, Nat.add_zero, ih h, Nat.max_assoc]
  | _ => cases h

theorem levels_followedBy (h : s.IsChain) :
    (s.followedBy rest).levels = max s.levels rest.levels := by
  induction s with
  | skip => exact (Nat.zero_max _).symm
  | seq first more _ ih => rw [followedBy, levels, levels, ih h, Nat.max_assoc]
  | _ => cases h

end Stmt

theorem DeclTokens.isChain {s : Stmt} {ts : List Token} (h : DeclTokens s ts) : s.IsChain := by
  induction s generalizing ts with
  | seq first rest _ ih =>
      cases h with
      | var _ hrest | statement _ hrest => exact ih hrest
  | _ => cases h <;> trivial

theorem DeclTokens.append {s rest : Stmt} {ts us : List Token} (h : DeclTokens s ts)
    (hrest : DeclTokens rest us) : DeclTokens (s.followedBy rest) (ts ++ us) := by
  induction s generalizing ts with
  | skip =>
      cases h
      exact hrest
  | seq first more _ ih =>
      cases h with
      | var hfirst hmore =>
          rw [List.append_assoc]
          exact .var hfirst (ih hmore)
      | statement hfirst hmore =>
          rw [List.append_assoc]
          exact .statement hfirst (ih hmore)
  | _ => cases h

section Elsewhere

variable {f : Token → Token} (hkind : ∀ t, (f t).kind = t.kind)
    (hlexeme : ∀ t, (f t).lexeme = t.lexeme)
include hkind hlexeme

theorem Spelled.map {t : Token} {kind : TokenKind} {lexeme : String} (h : Spelled t kind lexeme) :
    Spelled (f t) kind lexeme :=
  ⟨(hkind t).trans h.1, (hlexeme t).trans h.2⟩

/-- Only the kinds and texts of tokens count, not where they stand. -/
theorem ExprTokens.map {n : Nat} {e : Expr} {ts : List Token} (h : ExprTokens n e ts) :
    ExprTokens n e (ts.map f) := by
  induction h with
  | nil h => exact .nil ((hkind _).trans h)
  | true h => exact .true ((hkind _).trans h)
  | false h => exact .false ((hkind _).trans h)
  | number h => exact .number (h.map hkind hlexeme)
  | string h => exact .string (h.map hkind hlexeme)
  | name h => exact .name (h.map hkind hlexeme)
  | group hl _ hr ih =>
      rw [List.map_append]
      exact .group ((hkind _).trans hl) ih ((hkind _).trans hr)
  | unary h _ ih => exact .unary ((hkind _).trans h) ih
  | binary _ h _ ihl ihr =>
      rw [List.map_append]
      exact .binary ihl ((hkind _).trans h) ihr
  | and _ h _ ihl ihr =>
      rw [List.map_append]
      exact .and ihl ((hkind _).trans h) ihr
  | or _ h _ ihl ihr =>
      rw [List.map_append]
      exact .or ihl ((hkind _).trans h) ihr
  | assign h heq _ ih => exact .assign (h.map hkind hlexeme) ((hkind _).trans heq) ih
  | looser _ ih => exact .looser ih

theorem OptionalExpr.map {e : Option Expr} {ts : List Token} (h : OptionalExpr e ts) :
    OptionalExpr e (ts.map f) := by
  cases h with
  | none => exact .none
  | some he => exact .some (he.map hkind hlexeme)

theorem VarTokens.map {s : Stmt} {ts : List Token} (h : VarTokens s ts) :
    VarTokens s (ts.map f) := by
  cases h with
  | bare hv ht hsemi =>
      exact .bare ((hkind _).trans hv) (ht.map hkind hlexeme) ((hkind _).trans hsemi)
  | withValue hv ht heq he hsemi =>
      rw [List.map_append]
      exact .withValue ((hkind _).trans hv) (ht.map hkind hlexeme) ((hkind _).trans heq)
        (he.map hkind hlexeme) ((hkind _).trans hsemi)

theorem ForStartTokens.map {s : Stmt} {ts : List Token} (h : ForStartTokens s ts) :
    ForStartTokens s (ts.map f) := by
  cases h with
  | absent hsemi => exact .absent ((hkind _).trans hsemi)
  | var h => exact .var (h.map hkind hlexeme)
  | expression he hsemi =>
      rw [List.map_append]
      exact .expression (he.map hkind hlexeme) ((hkind _).trans hsemi)

theorem tokens_map (s : Stmt) : (∀ ts, StmtTokens s ts → StmtTokens s (ts.map f)) ∧
    ∀ ts, DeclTokens s ts → DeclTokens s (ts.map f) := by
  induction s with
  | skip =>
      refine ⟨nofun, fun ts h => ?_⟩
      cases h
      exact .skip
  | seq first rest ihf ihr =>
      refine ⟨nofun, fun ts h => ?_⟩
      cases h with
      | var hfirst hrest =>
          rw [List.map_append]
          exact .var (hfirst.map hkind hlexeme) (ihr.2 _ hrest)
      | statement hfirst hrest =>
          rw [List.map_append]
          exact .statement (ihf.1 _ hfirst) (ihr.2 _ hrest)
  | var x value => exact ⟨nofun, nofun⟩
  | print e =>
      refine ⟨fun ts h => ?_, nofun⟩
      cases h with
      | print hp he hsemi =>
          rw [List.map_append]
          exact .print ((hkind _).trans hp) (he.map hkind hlexeme) ((hkind _).trans hsemi)
  | expression e =>
      refine ⟨fun ts h => ?_, nofun⟩
      cases h with
      | expression he hsemi =>
          rw [List.map_append]
          exact .expression (he.map hkind hlexeme) ((hkind _).trans hsemi)
  | block body ih =>
      refine ⟨fun ts h => ?_, nofun⟩
      cases h with
      | block hl hbody hr =>
          rw [List.map_append]
          exact .block ((hkind _).trans hl) (ih.2 _ hbody) ((hkind _).trans hr)
  | branch condition yes no ihy ihn =>
      refine ⟨fun ts h => ?_, nofun⟩
      cases h with
      | ifOnly hi hl hc hr hyes =>
          rw [List.map_append]
          exact .ifOnly ((hkind _).trans hi) ((hkind _).trans hl) (hc.map hkind hlexeme)
            ((hkind _).trans hr) (ihy.1 _ hyes)
      | ifElse hi hl hc hr hyes hopen he hno =>
          rw [List.map_append, List.map_append]
          exact .ifElse ((hkind _).trans hi) ((hkind _).trans hl) (hc.map hkind hlexeme)
            ((hkind _).trans hr) (ihy.1 _ hyes) hopen ((hkind _).trans he) (ihn.1 _ hno)
  | whileLoop condition body ih =>
      refine ⟨fun ts h => ?_, nofun⟩
      cases h with
      | whileLoop hw hl hc hr hbody =>
          rw [List.map_append]
          exact .whileLoop ((hkind _).trans hw) ((hkind _).trans hl) (hc.map hkind hlexeme)
            ((hkind _).trans hr) (ih.1 _ hbody)
  | forLoop first condition increment body _ ih =>
      refine ⟨fun ts h => ?_, nofun⟩
      cases h with
      | forLoop hf hl hfirst hc hsemi hi hr hbody =>
          rw [List.map_append, List.map_cons, List.map_append, List.map_append]
          exact .forLoop ((hkind _).trans hf) ((hkind _).trans hl) (hfirst.map hkind hlexeme)
            (hc.map hkind hlexeme) ((hkind _).trans hsemi) (hi.map hkind hlexeme)
            ((hkind _).trans hr) (ih.1 _ hbody)

end Elsewhere

end StackScript.Tree
