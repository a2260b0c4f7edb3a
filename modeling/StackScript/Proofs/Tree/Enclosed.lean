import Mathlib.Tactic.Common
import StackScript.Tree.Code
import StackScript.Tree.Written

/-!
Parentheses as part of the tree. What an expression is written as spells a tree of its own, with
a group wherever the text has parentheses. Groups are all in which that tree differs from the
expression, and groups have no code and no constants.
-/

namespace StackScript.Tree

/-- The tree that `Expr.lexemes` spells. -/
def Expr.enclosedAt (least : Nat) (e : Expr) : Expr :=
  let bare := match e with
    | .assign x value => .assign x (value.enclosedAt Precedence.assignment.rank)
    | .unary op operand => .unary op (operand.enclosedAt Precedence.unary.rank)
    | .binary op left right =>
        .binary op (left.enclosedAt op.precedence.rank) (right.enclosedAt (op.precedence.rank + 1))
    | .and left right =>
        .and (left.enclosedAt (Precedence.and.rank + 1)) (right.enclosedAt Precedence.and.rank)
    | .or left right =>
        .or (left.enclosedAt (Precedence.or.rank + 1)) (right.enclosedAt Precedence.or.rank)
    | .group inner => .group (inner.enclosedAt Precedence.assignment.rank)
    | leaf => leaf
  if e.rank < least then .group bare else bare

/-- The tree that `Expr.fullLexemes` spells. -/
def Expr.enclosedFully : Expr → Expr
  | .assign x value => .group (.assign x value.enclosedFully)
  | .unary op operand => .group (.unary op operand.enclosedFully)
  | .binary op left right => .group (.binary op left.enclosedFully right.enclosedFully)
  | .and left right => .group (.and left.enclosedFully right.enclosedFully)
  | .or left right => .group (.or left.enclosedFully right.enclosedFully)
  | .group inner => .group inner.enclosedFully
  | leaf => .group leaf

/-- The expression without its groups. -/
def Expr.ungrouped : Expr → Expr
  | .assign x value => .assign x value.ungrouped
  | .unary op operand => .unary op operand.ungrouped
  | .binary op left right => .binary op left.ungrouped right.ungrouped
  | .and left right => .and left.ungrouped right.ungrouped
  | .or left right => .or left.ungrouped right.ungrouped
  | .group inner => inner.ungrouped
  | leaf => leaf

theorem Expr.code_ungrouped (pool : List Value) (scope : Scope) (e : Expr) :
    e.ungrouped.code pool scope = e.code pool scope := by
  induction e with
  | nil | bool _ | number _ | string _ | name _ => rfl
  | assign _ _ ih | unary _ _ ih | group _ ih => simp only [ungrouped, code, ih]
  | binary _ _ _ ihl ihr | and _ _ ihl ihr | or _ _ ihl ihr => simp only [ungrouped, code, ihl, ihr]

theorem Expr.constants_ungrouped (scope : Scope) (e : Expr) :
    e.ungrouped.constants scope = e.constants scope := by
  induction e with
  | nil | bool _ | number _ | string _ | name _ => rfl
  | assign _ _ ih | unary _ _ ih | group _ ih => simp only [ungrouped, constants, ih]
  | binary _ _ _ ihl ihr | and _ _ ihl ihr | or _ _ ihl ihr =>
      simp only [ungrouped, constants, ihl, ihr]

theorem Expr.ungrouped_ite_group (p : Prop) [Decidable p] (e : Expr) :
    (if p then .group e else e).ungrouped = e.ungrouped := by
  split <;> rfl

theorem Expr.ungrouped_enclosedAt (least : Nat) (e : Expr) :
    (e.enclosedAt least).ungrouped = e.ungrouped := by
  induction e generalizing least with
  | nil | bool _ | number _ | string _ | name _ => exact ungrouped_ite_group _ _
  | assign _ _ ih | unary _ _ ih | group _ ih =>
      rw [enclosedAt, ungrouped_ite_group]
      simp only [ungrouped, ih]
  | binary _ _ _ ihl ihr | and _ _ ihl ihr | or _ _ ihl ihr =>
      rw [enclosedAt, ungrouped_ite_group]
      simp only [ungrouped, ihl, ihr]

theorem Expr.ungrouped_enclosedFully (e : Expr) : e.enclosedFully.ungrouped = e.ungrouped := by
  induction e with
  | nil | bool _ | number _ | string _ | name _ => rfl
  | assign _ _ ih | unary _ _ ih | group _ ih => simp only [enclosedFully, ungrouped, ih]
  | binary _ _ _ ihl ihr | and _ _ ihl ihr | or _ _ ihl ihr =>
      simp only [enclosedFully, ungrouped, ihl, ihr]

theorem BinaryOp.precedence_lt_primaryRank (op : BinaryOp) : op.precedence.rank < primaryRank := by
  cases op <;> decide

/-- Nothing is looser than an assignment. -/
theorem Expr.not_rank_lt_assignment (e : Expr) : ¬ e.rank < Precedence.assignment.rank :=
  Nat.not_lt_zero _

/-- A group stands anywhere as it is. -/
theorem Expr.lexemes_group {least : Nat} (h : least ≤ primaryRank) (e : Expr) :
    (Expr.group e).lexemes least = enclosed (e.lexemes Precedence.assignment.rank) := by
  rw [lexemes]
  exact if_neg (Nat.not_lt.mpr h)

theorem Expr.enclosedAt_group {least : Nat} (h : least ≤ primaryRank) (e : Expr) :
    (Expr.group e).enclosedAt least = .group (e.enclosedAt Precedence.assignment.rank) := by
  rw [enclosedAt]
  exact if_neg (Nat.not_lt.mpr h)

/-- Where parentheses are everywhere, none are missing. -/
theorem Expr.lexemes_enclosedFully {least : Nat} (h : least ≤ primaryRank) (e : Expr) :
    e.enclosedFully.lexemes least = e.fullLexemes := by
  induction e generalizing least with
  | nil | number _ | string _ | name _ => exact lexemes_group h _
  | bool b => cases b <;> exact lexemes_group h _
  | assign _ _ ih | unary _ _ ih =>
      rw [enclosedFully, lexemes_group h, lexemes, if_neg (not_rank_lt_assignment _)]
      simp only [fullLexemes]
      rw [ih (by decide)]
  | group _ ih =>
      rw [enclosedFully, lexemes_group h, fullLexemes, ih (by decide)]
  | binary op _ _ ihl ihr =>
      have hrank := op.precedence_lt_primaryRank
      rw [enclosedFully, lexemes_group h, lexemes, if_neg (not_rank_lt_assignment _)]
      simp only [fullLexemes]
      rw [ihl (Nat.le_of_lt hrank), ihr hrank]
  | and _ _ ihl ihr | or _ _ ihl ihr =>
      rw [enclosedFully, lexemes_group h, lexemes, if_neg (not_rank_lt_assignment _)]
      simp only [fullLexemes]
      rw [ihl (by decide), ihr (by decide)]

theorem Expr.enclosedAt_enclosedFully {least : Nat} (h : least ≤ primaryRank) (e : Expr) :
    e.enclosedFully.enclosedAt least = e.enclosedFully := by
  induction e generalizing least with
  | nil | bool _ | number _ | string _ | name _ => exact enclosedAt_group h _
  | assign _ _ ih | unary _ _ ih =>
      rw [enclosedFully, enclosedAt_group h, enclosedAt, if_neg (not_rank_lt_assignment _)]
      rw [ih (by decide)]
  | group _ ih =>
      rw [enclosedFully, enclosedAt_group h, ih (by decide)]
  | binary op _ _ ihl ihr =>
      have hrank := op.precedence_lt_primaryRank
      rw [enclosedFully, enclosedAt_group h, enclosedAt, if_neg (not_rank_lt_assignment _)]
      rw [ihl (Nat.le_of_lt hrank), ihr hrank]
  | and _ _ ihl ihr | or _ _ ihl ihr =>
      rw [enclosedFully, enclosedAt_group h, enclosedAt, if_neg (not_rank_lt_assignment _)]
      rw [ihl (by decide), ihr (by decide)]

end StackScript.Tree
