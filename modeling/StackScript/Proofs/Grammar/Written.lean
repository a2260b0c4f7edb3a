import StackScript.Proofs.Grammar.Precedence
import StackScript.Proofs.Token.Lexeme
import StackScript.Proofs.Tree.Enclosed

/-!
What an expression is written as is what the grammar asks for: the lexemes of a tree, with the
parentheses that the strength of operators makes necessary, are tokens of that tree.
-/

namespace StackScript.Tree

/-- Whether the names, the numbers and the strings of an expression can be written down as such. -/
def Expr.spellable : Expr → Bool
  | .nil | .bool _ => true
  | .number literal => (Number.parse? literal).isSome
  | .string s => !s.toList.contains '"'
  | .name x => isName x
  | .assign x value => isName x && value.spellable
  | .unary _ operand => operand.spellable
  | .binary _ left right | .and left right | .or left right => left.spellable && right.spellable
  | .group inner => inner.spellable

theorem Expr.spellable_ungrouped (e : Expr) : e.ungrouped.spellable = e.spellable := by
  induction e with
  | nil | bool _ | number _ | string _ | name _ => rfl
  | assign _ _ ih | unary _ _ ih | group _ ih => simp only [ungrouped, spellable, ih]
  | binary _ _ _ ihl ihr | and _ _ ihl ihr | or _ _ ihl ihr =>
      simp only [ungrouped, spellable, ihl, ihr]

theorem UnaryOp.isLexeme_lexeme (op : UnaryOp) : isLexeme op.lexeme = true := by
  cases op <;> decide

theorem BinaryOp.isLexeme_lexeme (op : BinaryOp) : isLexeme op.lexeme = true := by
  cases op <;> decide

theorem UnaryOp.ofLexeme_lexeme (op : UnaryOp) : TokenKind.ofLexeme op.lexeme = op.token := by
  cases op <;> decide

theorem BinaryOp.ofLexeme_lexeme (op : BinaryOp) : TokenKind.ofLexeme op.lexeme = op.token := by
  cases op <;> decide

theorem not_mem_of_spellable {s : String} (h : (Expr.string s).spellable = true) :
    '"' ∉ s.toList := by
  simpa [Expr.spellable] using h

theorem isLexeme_of_mem_ite {p : Prop} [Decidable p] {lexemes : List String}
    (h : ∀ x ∈ lexemes, isLexeme x = true) :
    ∀ x ∈ (if p then enclosed lexemes else lexemes), isLexeme x = true := by
  split
  · rw [enclosed, List.cons_append, List.forall_mem_cons, List.forall_mem_append]
    exact ⟨by decide, h, by decide⟩
  · exact h

theorem Expr.isLexeme_of_mem {e : Expr} (h : e.spellable = true) (least : Nat) :
    ∀ x ∈ e.lexemes least, isLexeme x = true := by
  induction e generalizing least with
  | nil =>
      rw [lexemes]
      exact isLexeme_of_mem_ite (by decide)
  | bool b =>
      cases b <;> rw [lexemes] <;> exact isLexeme_of_mem_ite (by decide)
  | number literal =>
      rw [lexemes]
      exact isLexeme_of_mem_ite (List.forall_mem_singleton.mpr (isLexeme_number h).1)
  | string s =>
      rw [lexemes]
      exact isLexeme_of_mem_ite
        (List.forall_mem_singleton.mpr (isLexeme_string (not_mem_of_spellable h)).1)
  | name x =>
      rw [lexemes]
      exact isLexeme_of_mem_ite (List.forall_mem_singleton.mpr (isLexeme_name h).1)
  | assign x value ih =>
      obtain ⟨hx, hvalue⟩ := Bool.and_eq_true_iff.mp h
      rw [lexemes]
      refine isLexeme_of_mem_ite ?_
      rw [List.forall_mem_cons, List.forall_mem_cons]
      exact ⟨(isLexeme_name hx).1, by decide, ih hvalue _⟩
  | unary op operand ih =>
      rw [lexemes]
      refine isLexeme_of_mem_ite ?_
      rw [List.forall_mem_cons]
      exact ⟨op.isLexeme_lexeme, ih h _⟩
  | binary op left right ihl ihr =>
      obtain ⟨hleft, hright⟩ := Bool.and_eq_true_iff.mp h
      rw [lexemes]
      refine isLexeme_of_mem_ite ?_
      rw [List.forall_mem_append, List.forall_mem_cons]
      exact ⟨ihl hleft _, op.isLexeme_lexeme, ihr hright _⟩
  | and left right ihl ihr | or left right ihl ihr =>
      obtain ⟨hleft, hright⟩ := Bool.and_eq_true_iff.mp h
      rw [lexemes]
      refine isLexeme_of_mem_ite ?_
      rw [List.forall_mem_append, List.forall_mem_cons]
      exact ⟨ihl hleft _, by decide, ihr hright _⟩
  | group inner ih =>
      rw [lexemes]
      refine isLexeme_of_mem_ite ?_
      rw [enclosed, List.cons_append, List.forall_mem_cons, List.forall_mem_append]
      exact ⟨by decide, ih h _, by decide⟩

/-- No expression stands where only tighter ones may: the parentheses around it are required. -/
theorem ExprTokens.le_rank {n : Nat} {e : Expr} {ts : List Token} (h : ExprTokens n e ts) :
    n ≤ e.rank := by
  induction h with
  | looser _ ih => exact Nat.le_of_succ_le ih
  | _ => exact Nat.le_refl _

/-- Tokens of what stands between parentheses. -/
theorem exists_of_spell_enclosed {ts : List Token} {lexemes : List String}
    (h : Spell ts (enclosed lexemes)) : ∃ l us r, ts = l :: us ++ [r] ∧ l.kind = .leftParen ∧
      Spell us lexemes ∧ r.kind = .rightParen := by
  obtain ⟨l, rest, rfl, hl, -, hrest⟩ := h.of_cons
  obtain ⟨us, last, rfl, hus, hlast⟩ := hrest.of_append
  obtain ⟨r, rfl, hr, -⟩ := hlast.of_singleton
  exact ⟨l, us, r, rfl, hl, hus, hr⟩

/-- Parentheses make up for what an expression lacks in strength. -/
theorem exprTokens_of_spell_ite {n least : Nat} (hle : least ≤ primaryRank) {bare : Expr}
    {lexemes : List String} (hbare : ∀ ts, Spell ts lexemes → ExprTokens n bare ts)
    {ts : List Token} (h : Spell ts (if n < least then enclosed lexemes else lexemes)) :
    ExprTokens least (if n < least then .group bare else bare) ts := by
  by_cases hn : n < least
  · rw [if_pos hn] at h ⊢
    obtain ⟨l, us, r, rfl, hl, hus, hr⟩ := exists_of_spell_enclosed h
    exact .weaken hle (.group hl (.weaken (Nat.zero_le _) (hbare us hus)) hr)
  · rw [if_neg hn] at h ⊢
    exact .weaken (Nat.le_of_not_lt hn) (hbare ts h)

/-- The lexemes of an expression are tokens of it, with a group for the parentheses. -/
theorem Expr.exprTokens_of_spell {e : Expr} (hspellable : e.spellable = true) {least : Nat}
    (hle : least ≤ primaryRank) {ts : List Token} (h : Spell ts (e.lexemes least)) :
    ExprTokens least (e.enclosedAt least) ts := by
  induction e generalizing least ts with
  | nil =>
      rw [lexemes] at h
      refine exprTokens_of_spell_ite hle (fun ts h => ?_) h
      obtain ⟨t, rfl, ht, -⟩ := h.of_singleton
      exact .nil ht
  | bool b =>
      cases b
      all_goals
        rw [lexemes] at h
        refine exprTokens_of_spell_ite hle (fun ts h => ?_) h
        obtain ⟨t, rfl, ht, -⟩ := h.of_singleton
      · exact .false ht
      · exact .true ht
  | number literal =>
      rw [lexemes] at h
      refine exprTokens_of_spell_ite hle (fun ts h => ?_) h
      obtain ⟨t, rfl, ht, hlexeme⟩ := h.of_singleton
      exact .number ⟨ht.trans (isLexeme_number hspellable).2, hlexeme⟩
  | string s =>
      rw [lexemes] at h
      refine exprTokens_of_spell_ite hle (fun ts h => ?_) h
      obtain ⟨t, rfl, ht, hlexeme⟩ := h.of_singleton
      exact .string ⟨ht.trans (isLexeme_string (not_mem_of_spellable hspellable)).2, hlexeme⟩
  | name x =>
      rw [lexemes] at h
      refine exprTokens_of_spell_ite hle (fun ts h => ?_) h
      obtain ⟨t, rfl, ht, hlexeme⟩ := h.of_singleton
      exact .name ⟨ht.trans (isLexeme_name hspellable).2, hlexeme⟩
  | assign x value ih =>
      obtain ⟨hx, hvalue⟩ := Bool.and_eq_true_iff.mp hspellable
      rw [lexemes] at h
      rw [enclosedAt]
      refine exprTokens_of_spell_ite hle (fun ts h => ?_) h
      obtain ⟨t, rest, rfl, ht, hlexeme, hrest⟩ := h.of_cons
      obtain ⟨eq, us, rfl, heq, -, hus⟩ := hrest.of_cons
      exact .assign ⟨ht.trans (isLexeme_name hx).2, hlexeme⟩ heq (ih hvalue (by decide) hus)
  | unary op operand ih =>
      rw [lexemes] at h
      rw [enclosedAt]
      refine exprTokens_of_spell_ite hle (fun ts h => ?_) h
      obtain ⟨t, us, rfl, ht, -, hus⟩ := h.of_cons
      exact .unary (ht.trans op.ofLexeme_lexeme) (ih hspellable (by decide) hus)
  | binary op left right ihl ihr =>
      obtain ⟨hleft, hright⟩ := Bool.and_eq_true_iff.mp hspellable
      have hrank := op.precedence_lt_primaryRank
      rw [lexemes] at h
      rw [enclosedAt]
      refine exprTokens_of_spell_ite hle (fun ts h => ?_) h
      obtain ⟨us, t, vs, rfl, hus, ht, hvs⟩ := h.of_infix
      exact .binary (ihl hleft (Nat.le_of_lt hrank) hus) (ht.trans op.ofLexeme_lexeme)
        (ihr hright hrank hvs)
  | and left right ihl ihr =>
      obtain ⟨hleft, hright⟩ := Bool.and_eq_true_iff.mp hspellable
      rw [lexemes] at h
      rw [enclosedAt]
      refine exprTokens_of_spell_ite hle (fun ts h => ?_) h
      obtain ⟨us, t, vs, rfl, hus, ht, hvs⟩ := h.of_infix
      exact .and (ihl hleft (by decide) hus) ht (ihr hright (by decide) hvs)
  | or left right ihl ihr =>
      obtain ⟨hleft, hright⟩ := Bool.and_eq_true_iff.mp hspellable
      rw [lexemes] at h
      rw [enclosedAt]
      refine exprTokens_of_spell_ite hle (fun ts h => ?_) h
      obtain ⟨us, t, vs, rfl, hus, ht, hvs⟩ := h.of_infix
      exact .or (ihl hleft (by decide) hus) ht (ihr hright (by decide) hvs)
  | group inner ih =>
      rw [lexemes] at h
      rw [enclosedAt]
      refine exprTokens_of_spell_ite hle (fun ts h => ?_) h
      obtain ⟨l, us, r, rfl, hl, hus, hr⟩ := exists_of_spell_enclosed h
      exact .group hl (ih hspellable (by decide) hus) hr

end StackScript.Tree
