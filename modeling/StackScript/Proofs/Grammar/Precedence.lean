import StackScript.Builder.Expression
import StackScript.Tree.Code
import StackScript.Tree.Grammar
import StackScript.Tree.Limits

/-!
How the strata of the grammar and the strength of operators fit together. An expression
read so far can be the left operand of the next operator exactly when that operator's
rank lies below the reach of the expression.
-/

namespace StackScript

theorem Precedence.rank_le_unary (p : Precedence) : p.rank ≤ Precedence.unary.rank := by
  cases p <;> decide

namespace TokenKind

theorem lead?_eq_group {k : TokenKind} (h : k.lead? = some .group) : k = .leftParen := by
  cases k <;> simp_all [lead?]

theorem lead?_eq_unary {k : TokenKind} {op : Opcode} (h : k.lead? = some (.unary op)) :
    ∃ u : Tree.UnaryOp, k = u.token ∧ op = u.opcode := by
  cases k <;> simp_all [lead?]
  · exact ⟨.negate, rfl, h.symm⟩
  · exact ⟨.not, rfl, h.symm⟩

theorem lead?_eq_number {k : TokenKind} (h : k.lead? = some .number) : k = .number := by
  cases k <;> simp_all [lead?]

theorem lead?_eq_string {k : TokenKind} (h : k.lead? = some .string) : k = .string := by
  cases k <;> simp_all [lead?]

theorem lead?_eq_identifier {k : TokenKind} (h : k.lead? = some .identifier) :
    k = .identifier := by
  cases k <;> simp_all [lead?]

theorem lead?_eq_literal {k : TokenKind} {op : Opcode} (h : k.lead? = some (.literal op)) :
    k = .nilWord ∨ k = .trueWord ∨ k = .falseWord := by
  cases k <;> simp_all [lead?]

theorem lead?_ne_endOfFile {k : TokenKind} {l : Lead} (h : k.lead? = some l) : k ≠ .endOfFile := by
  rintro rfl
  cases h

theorem join?_ne_endOfFile {k : TokenKind} {j : Join} (h : k.join? = some j) : k ≠ .endOfFile := by
  rintro rfl
  cases h

theorem join?_eq_binary {k : TokenKind} {precedence right : Precedence} {ops : List Opcode}
    (h : k.join? = some (.binary precedence right ops)) :
    ∃ op : Tree.BinaryOp, k = op.token ∧ precedence = op.precedence ∧ ops = op.opcodes ∧
      right.rank = precedence.rank + 1 := by
  cases k <;> simp_all [join?] <;> obtain ⟨rfl, rfl, rfl⟩ := h
  · exact ⟨.subtract, rfl, rfl, rfl, rfl⟩
  · exact ⟨.add, rfl, rfl, rfl, rfl⟩
  · exact ⟨.divide, rfl, rfl, rfl, rfl⟩
  · exact ⟨.multiply, rfl, rfl, rfl, rfl⟩
  · exact ⟨.notEqual, rfl, rfl, rfl, rfl⟩
  · exact ⟨.equal, rfl, rfl, rfl, rfl⟩
  · exact ⟨.greater, rfl, rfl, rfl, rfl⟩
  · exact ⟨.greaterEqual, rfl, rfl, rfl, rfl⟩
  · exact ⟨.less, rfl, rfl, rfl, rfl⟩
  · exact ⟨.lessEqual, rfl, rfl, rfl, rfl⟩

theorem join?_eq_conjunction {k : TokenKind} (h : k.join? = some .conjunction) : k = .andWord := by
  cases k <;> simp_all [join?]

theorem join?_eq_disjunction {k : TokenKind} (h : k.join? = some .disjunction) : k = .orWord := by
  cases k <;> simp_all [join?]

/-- Operators of this rank or above cannot follow. -/
def Below (n : Nat) (k : TokenKind) : Prop := ∀ j, k.join? = some j → j.precedence.rank < n

theorem Below.mono {n m : Nat} {k : TokenKind} (h : k.Below n) (hle : n ≤ m) : k.Below m :=
  fun j hj => Nat.lt_of_lt_of_le (h j hj) hle

/-- No operator binds more tightly than a factor. -/
theorem below_unary (k : TokenKind) : k.Below Precedence.unary.rank := by
  intro j hj
  cases k <;> cases hj <;> decide

end TokenKind

theorem Tree.BinaryOp.join?_token (op : Tree.BinaryOp) : ∃ right : Precedence,
    op.token.join? = some (.binary op.precedence right op.opcodes) ∧
      right.rank = op.precedence.rank + 1 := by
  cases op <;> exact ⟨_, rfl, rfl⟩

theorem Tree.BinaryOp.equality_le_rank (op : Tree.BinaryOp) :
    Precedence.equality.rank ≤ op.precedence.rank := by
  cases op <;> decide

namespace Tree

/-- The rank below which operators take an expression of rank `n` as their left operand.
Operators that group to the right need a tighter left operand than themselves. -/
def reach (n : Nat) : Nat := if n < Precedence.equality.rank then n else n + 1

theorem le_reach (n : Nat) : n ≤ reach n := by
  unfold reach
  split <;> omega

theorem reach_mono {n m : Nat} (h : n ≤ m) : reach n ≤ reach m := by
  unfold reach
  split <;> split <;> omega

theorem reach_of_equality_le {n : Nat} (h : Precedence.equality.rank ≤ n) : reach n = n + 1 :=
  if_neg (Nat.not_lt.mpr h)

theorem le_of_lt_reach {n m : Nat} (h : n < reach m) : n ≤ m := by
  unfold reach at h
  split at h <;> omega

/-- An operator that groups to the right only follows something tighter. -/
theorem lt_of_lt_reach {n m : Nat} (hn : n < Precedence.equality.rank) (h : n < reach m) :
    n < m := by
  unfold reach at h
  split at h <;> omega

/-- A tight expression stands wherever a looser one may. -/
theorem ExprTokens.weaken {n m : Nat} {e : Expr} {ts : List Token} (hle : n ≤ m)
    (h : ExprTokens m e ts) : ExprTokens n e ts := by
  induction hle with
  | refl => exact h
  | step _ ih => exact ih (.looser h)

/-- The first token of an expression can begin one. -/
theorem ExprTokens.exists_lead {n : Nat} {e : Expr} {ts : List Token} (h : ExprTokens n e ts) :
    ∃ t rest l, ts = t :: rest ∧ t.kind.lead? = some l := by
  induction h with
  | nil ht => exact ⟨_, _, .literal .pushNil, rfl, by rw [ht]; rfl⟩
  | true ht => exact ⟨_, _, .literal .pushTrue, rfl, by rw [ht]; rfl⟩
  | false ht => exact ⟨_, _, .literal .pushFalse, rfl, by rw [ht]; rfl⟩
  | number ht => exact ⟨_, _, .number, rfl, by rw [ht.1]; rfl⟩
  | string ht => exact ⟨_, _, .string, rfl, by rw [ht.1]; rfl⟩
  | name ht => exact ⟨_, _, .identifier, rfl, by rw [ht.1]; rfl⟩
  | group hl _ _ _ => exact ⟨_, _, .group, rfl, by rw [hl]; rfl⟩
  | @unary _ op _ _ ht _ _ => exact ⟨_, _, .unary op.opcode, rfl, by rw [ht]; cases op <;> rfl⟩
  | binary _ _ _ ih _ | and _ _ _ ih _ | or _ _ _ ih _ =>
      obtain ⟨t, rest, l, rfl, hl⟩ := ih
      exact ⟨t, _, l, rfl, hl⟩
  | assign ht _ _ _ => exact ⟨_, _, .identifier, rfl, by rw [ht.1]; rfl⟩
  | looser _ ih => exact ih

/-- What can begin a statement ends nothing and declares nothing. -/
structure StartsStatement (k : TokenKind) : Prop where
  brace : k ≠ .rightBrace
  last : k ≠ .endOfFile
  other : k ≠ .elseWord
  declaration : k ≠ .varWord

theorem StmtTokens.exists_start {s : Stmt} {ts : List Token} (h : StmtTokens s ts) :
    ∃ t rest, ts = t :: rest ∧ StartsStatement t.kind := by
  cases h with
  | print hp _ _ => exact ⟨_, _, rfl, by rw [hp]; constructor <;> decide⟩
  | expression he _ =>
      obtain ⟨t, rest, l, rfl, hl⟩ := he.exists_lead
      refine ⟨t, _, rfl, ?_⟩
      constructor <;> (intro hkind; rw [hkind] at hl; cases hl)
  | block hl _ _ => exact ⟨_, _, rfl, by rw [hl]; constructor <;> decide⟩
  | ifOnly hi _ _ _ _ => exact ⟨_, _, rfl, by rw [hi]; constructor <;> decide⟩
  | ifElse hi _ _ _ _ _ _ _ => exact ⟨_, _, rfl, by rw [hi]; constructor <;> decide⟩
  | whileLoop hw _ _ _ _ => exact ⟨_, _, rfl, by rw [hw]; constructor <;> decide⟩
  | forLoop hf _ _ _ _ _ _ _ => exact ⟨_, _, rfl, by rw [hf]; constructor <;> decide⟩

theorem StmtTokens.declared {s : Stmt} {ts : List Token} (h : StmtTokens s ts)
    (here : List String) : s.declared here = here := by
  cases h <;> rfl

theorem VarTokens.exists_start {s : Stmt} {ts : List Token} (h : VarTokens s ts) :
    ∃ t rest, ts = t :: rest ∧ t.kind = .varWord := by
  cases h with
  | bare hv _ _ => exact ⟨_, _, rfl, hv⟩
  | withValue hv _ _ _ _ => exact ⟨_, _, rfl, hv⟩

theorem VarTokens.ne_nil {s : Stmt} {ts : List Token} (h : VarTokens s ts) : ts ≠ [] := by
  cases h <;> simp

theorem StmtTokens.ne_nil {s : Stmt} {ts : List Token} (h : StmtTokens s ts) : ts ≠ [] := by
  cases h <;> simp

end Tree

end StackScript
