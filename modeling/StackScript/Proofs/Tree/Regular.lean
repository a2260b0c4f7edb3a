import StackScript.Proofs.Tree.Fits
import StackScript.Proofs.Grammar.Precedence

/-!
Regular trees, in which declarations only stand in chains and in the first clause of a
`for`. What stands under a condition leaves the scope around it as it was.
-/

namespace StackScript.Tree

/-- The branches of every `if` and the bodies of all loops declare nothing in the scope
around them. -/
def Stmt.Regular : Stmt → Prop
  | .seq first rest => first.Regular ∧ rest.Regular
  | .block body => body.Regular
  | .branch _ yes no => (yes.declared [] = [] ∧ no.declared [] = []) ∧ yes.Regular ∧ no.Regular
  | .whileLoop _ body => body.declared [] = [] ∧ body.Regular
  | .forLoop first _ _ body => body.declared [] = [] ∧ first.Regular ∧ body.Regular
  | _ => True

namespace Stmt

theorem scopeAfter_of_declared {s : Stmt} (h : s.declared [] = []) (top : Bool) (scope : Scope) :
    s.scopeAfter top scope = scope := by
  cases top with
  | true => exact s.scopeAfter_top scope
  | false =>
      have hafter := s.scopeAfter_local [] scope
      rwa [h, List.nil_append] at hafter

theorem length_le_scopeAfter (s : Stmt) (top : Bool) (scope : Scope) :
    scope.length ≤ (s.scopeAfter top scope).length := by
  cases top with
  | true => rw [scopeAfter_top]
  | false =>
      rw [length_scopeAfter]
      exact Nat.le_add_right ..

end Stmt

theorem VarTokens.regular {s : Stmt} {ts : List Token} (h : VarTokens s ts) : s.Regular := by
  cases h <;> trivial

theorem ForStartTokens.regular {s : Stmt} {ts : List Token} (h : ForStartTokens s ts) :
    s.Regular := by
  cases h with
  | absent _ => trivial
  | var h => exact h.regular
  | expression _ _ => trivial

/-- The trees of the grammar are regular. -/
theorem regular_of_tokens (s : Stmt) : (∀ ts, StmtTokens s ts → s.Regular) ∧
    ∀ ts, DeclTokens s ts → s.Regular := by
  induction s with
  | skip | var _ _ | print _ | expression _ => exact ⟨fun _ _ => trivial, fun _ _ => trivial⟩
  | seq first rest ihf ihr =>
      refine ⟨fun ts h => (nomatch h), fun ts h => ?_⟩
      cases h with
      | var hfirst hrest => exact ⟨hfirst.regular, ihr.2 _ hrest⟩
      | statement hfirst hrest => exact ⟨ihf.1 _ hfirst, ihr.2 _ hrest⟩
  | block body ih =>
      refine ⟨fun ts h => ?_, fun ts h => nomatch h⟩
      cases h with
      | block _ hbody _ => exact ih.2 _ hbody
  | branch condition yes no ihy ihn =>
      refine ⟨fun ts h => ?_, fun ts h => nomatch h⟩
      cases h with
      | ifOnly _ _ _ _ hyes => exact ⟨⟨hyes.declared [], rfl⟩, ihy.1 _ hyes, trivial⟩
      | ifElse _ _ _ _ hyes _ _ hno =>
          exact ⟨⟨hyes.declared [], hno.declared []⟩, ihy.1 _ hyes, ihn.1 _ hno⟩
  | whileLoop condition body ih =>
      refine ⟨fun ts h => ?_, fun ts h => nomatch h⟩
      cases h with
      | whileLoop _ _ _ _ hbody => exact ⟨hbody.declared [], ih.1 _ hbody⟩
  | forLoop first condition increment body _ ih =>
      refine ⟨fun ts h => ?_, fun ts h => nomatch h⟩
      cases h with
      | forLoop _ _ hfirst _ _ _ _ hbody =>
          exact ⟨hbody.declared [], hfirst.regular, ih.1 _ hbody⟩

theorem ProgramTokens.regular {tree : Stmt} {tokens : List Token} (h : ProgramTokens tree tokens) :
    tree.Regular := by
  obtain ⟨ts, last, hdecls, -, -⟩ := h
  exact (regular_of_tokens tree).2 ts hdecls

end StackScript.Tree
