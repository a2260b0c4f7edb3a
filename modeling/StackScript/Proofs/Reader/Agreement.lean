import StackScript.Proofs.Reader.Runs

/-!
The code does what the readers do. Each reader's code is taken along the reader's own parts, for any
statements and operands inside it that are already known to be read as they should; the recursion is
then closed by the depth. No bound is ever met: a loop that goes on has a token before it that every
round takes away, and the limit on nesting comes before the end of the depth.
-/

namespace StackScript.Reader

open Builder

namespace Code

variable {n : Nat} {b b' : Builder}

/-- Which tokens were still unread before makes no difference to loading. -/
theorem load_withUnread (unread before : List Token) (b : Builder) :
    load unread (b.withUnread before) = load unread b := by
  induction unread generalizing b with
  | nil => rfl
  | cons t rest ih =>
      unfold load
      split
      · rename_i reason _
        have hreport := blind_report t (.lexical reason) b before
        dsimp only at hreport
        rw [hreport]
        exact ih _
      · rfl

/-- Passing over faults and taking one more token is what `load` does. -/
theorem exists_runs_faults (unread : List Token) {b : Builder} (h : b.unread = unread) :
    ∃ b', (loop .faults).Runs b b' ∧ b'.take = load unread b := by
  induction unread generalizing b with
  | nil =>
      refine ⟨b, runs_loop_end (by simp [Loop.more, faultAhead, h]), ?_⟩
      rw [load, Builder.take, h]
      exact congrArg b.withUnread h
  | cons t rest ih =>
      unfold load
      split
      · rename_i reason hkind
        have htake : b.take = (b.report t (.lexical reason)).withUnread rest := by
          simp [Builder.take, h, hkind, withUnread]
        obtain ⟨b', hruns, hlast⟩ := ih (b := b.take) (by rw [htake]; rfl)
        refine ⟨b', runs_loop_round (by simp [Loop.more, faultAhead, h, hkind]) (runs_take b) hruns,
          ?_⟩
        rw [hlast, htake, load_withUnread]
      · rename_i hsound
        refine ⟨b, runs_loop_end ?_, ?_⟩
        · simp only [Loop.more, faultAhead, h]
        · simp only [Builder.take, h]

theorem does_advance : advance.Does n b b.advance := by
  intro hb
  obtain ⟨b', hruns, hlast⟩ :=
    exists_runs_faults b.unread (b := { b with previous := b.current }) rfl
  have htake := runs_take b'
  rw [hlast] at htake
  exact ⟨(runs_act _ b).seq (hruns.seq htake), hb.ending.advance,
    (closed_levels.advance b).1.trans hb.level⟩

theorem does_expect (kind : TokenKind) (what : Expectation) :
    (expect kind what).Does n b (b.expect kind what) :=
  does_choice does_advance (does_act _)

/-- Whoever has not come to the end reads a token by moving on. -/
theorem unread_lt {f : Builder → Builder} (hb : At n b) (hmore : b.current.kind ≠ .endOfFile)
    (hmoves : (f b).unread.length ≤ b.advance.unread.length) :
    (f b).unread.length < b.unread.length := by
  have hpos := List.length_pos_iff.mpr (hb.ending.unread_ne_nil hmore)
  have hshorter := unread_advance b
  omega

theorem current_ne_of_recovery (h : Loop.recovery.more b = true) : b.current.kind ≠ .endOfFile := by
  simp only [Loop.more, Bool.and_eq_true] at h
  simpa [sees] using h.1.1

theorem does_synchronize : synchronize.Does n b b.synchronize := by
  refine (does_act _).seq (does_loop (fun b hb hmore => ⟨does_advance, ?_⟩) _ (Nat.le_refl _))
  exact unread_lt hb (current_ne_of_recovery hmore) (Nat.le_refl _)

theorem does_emitJump {op : Opcode} {k : Nat → Code}
    (h : (k (b.emitJump op).2).Does n (b.emitJump op).1 b') : (emitJump op k).Does n b b' :=
  does_bind h

section Expressions

variable {operand : Precedence → Builder → Builder}
  (hoperand : ∀ p b, (call (.operand p)).Does n b (operand p b))
include hoperand

theorem does_namedVariable (canAssign : Bool) :
    (namedVariable canAssign).Does n b (b.namedVariable (operand .assignment) canAssign) := by
  refine does_look (does_bind ?_)
  exact does_choice (does_advance.seq ((hoperand _ _).seq (does_act _))) (does_act _)

theorem does_lead (canAssign : Bool) (l : Lead) :
    (lead canAssign l).Does n b (b.lead operand canAssign l) := by
  cases l with
  | group => exact (hoperand _ _).seq (does_expect _ _)
  | unary op => exact (hoperand _ _).seq (does_act _)
  | literal op => exact does_act _
  | number => exact does_act _
  | string => exact does_act _
  | identifier => exact does_namedVariable hoperand canAssign

theorem does_join (j : Join) : (join j).Does n b (b.join operand j) := by
  cases j with
  | binary p right ops => exact (hoperand _ _).seq (does_act _)
  | conjunction =>
      refine does_emitJump ?_
      exact (does_act _).seq ((hoperand _ _).seq (does_act _))
  | disjunction =>
      refine does_emitJump (does_emitJump ?_)
      exact (does_act _).seq ((does_act _).seq ((hoperand _ _).seq (does_act _)))

theorem does_joinNext : joinNext.Does n b (b.joinNext operand) := by
  refine does_advance.seq (does_look ?_)
  unfold Builder.joinNext
  dsimp only
  cases b.advance.previous.kind.join? with
  | none => exact does_skip
  | some j => exact does_join hoperand j

omit hoperand in
theorem current_ne_of_joins {p : Precedence} (h : (Loop.joins p).more b = true) :
    b.current.kind ≠ .endOfFile := by
  intro hend
  simp [Loop.more, joinsAt, hend, TokenKind.join?] at h

variable (hreads : ∀ p b, (operand p b).unread.length ≤ b.unread.length)
include hreads

theorem round_joins {p : Precedence} (hb : At n b) (hmore : (Loop.joins p).more b = true) :
    (Loop.joins p).round.Does n b (b.joinNext operand) ∧
      (b.joinNext operand).unread.length < b.unread.length :=
  ⟨does_joinNext hoperand, unread_lt hb (current_ne_of_joins hmore) (unread_joinNext hreads b)⟩

theorem does_operandWithin (p : Precedence) :
    (operandWithin p).Does n b (Builder.operandWithin operand p b) := by
  refine does_advance.seq (does_look ?_)
  unfold Builder.operandWithin
  dsimp only
  cases b.advance.previous.kind.lead? with
  | none => exact does_act _
  | some l =>
      have hloop {b : Builder} : (loop (.joins p)).Does n b
          (repeatWhile (joinsAt p) (Builder.joinNext operand) b.unread b) :=
        does_loop (fun b hb hmore => round_joins hoperand hreads hb hmore) _ (Nat.le_refl _)
      exact (does_lead hoperand _ l).seq (hloop.seq
        (does_choice (does_advance.seq (does_act _)) does_skip))

end Expressions

/-- A body on a level of its own, or what is done in its place. -/
theorem does_nested {body : Code} {f : Builder → Builder} (hn : n ≤ nestingMax)
    (hbody : n < nestingMax → ∀ b, body.Does (n + 1) b (f b)) :
    (nested body).Does n b (Builder.nested f b) := by
  intro hb
  unfold Builder.nested
  split
  · rename_i hlimit
    obtain ⟨hruns, hlast⟩ : tooDeep.Runs b (b.advance.errorAtPrevious .tooDeeplyNested) ∧ _ :=
      (does_advance.seq (does_act _)) hb
    exact ⟨runs_nested_limit hlimit hruns, hlast⟩
  · rename_i hroom
    have hlt : n < nestingMax := Nat.lt_of_le_of_ne hn (hb.level ▸ hroom)
    obtain ⟨hruns, hlast⟩ := hbody hlt { b with nesting := b.nesting + 1 }
      ⟨hb.ending, congrArg (· + 1) hb.level⟩
    refine ⟨runs_nested hroom hruns, hlast.ending, ?_⟩
    exact (congrArg (· - 1) hlast.level).trans (Nat.add_sub_cancel n 1)

theorem does_operand (depth : Nat) (hn : n ≤ nestingMax) (hdepth : nestingMax < depth + n)
    (p : Precedence) (b : Builder) : (call (.operand p)).Does n b (operand depth p b) := by
  induction depth generalizing n p b with
  | zero => exact absurd hdepth (by omega)
  | succ depth ih =>
      refine does_call (does_nested hn fun hlt b => ?_)
      exact does_operandWithin (fun p b => ih hlt (by omega) p b) (closed_unread.operand depth) p

section Statements

variable {statement expression : Builder → Builder}
  (hexpression : ∀ b, Code.expression.Does n b (expression b))
include hexpression

theorem does_varDeclaration : varDeclaration.Does n b (b.varDeclaration expression) := by
  refine (does_expect _ _).seq (does_bind ?_)
  exact (does_choice (does_advance.seq (hexpression _)) (does_act _)).seq
    ((does_expect _ _).seq (does_act _))

theorem does_printStatement : printStatement.Does n b (b.printStatement expression) :=
  (hexpression _).seq ((does_expect _ _).seq (does_act _))

theorem does_expressionStatement :
    expressionStatement.Does n b (b.expressionStatement expression) :=
  (hexpression _).seq ((does_expect _ _).seq (does_act _))

theorem does_condition {opening : Expectation} {k : Nat → Code}
    (h : (k (b.condition expression opening).2).Does n (b.condition expression opening).1 b') :
    (condition opening k).Does n b b' :=
  (does_expect _ _).seq ((hexpression _).seq
    ((does_expect _ _).seq (does_emitJump ((does_act _).seq h))))

theorem does_forStart : forStart.Does n b (b.forStart expression) :=
  does_choice does_advance (does_choice (does_advance.seq (does_varDeclaration hexpression))
    (does_expressionStatement hexpression))

theorem does_forCondition {k : Option Nat → Code}
    (h : (k (b.forCondition expression).2).Does n (b.forCondition expression).1 b') :
    (forCondition k).Does n b b' := by
  unfold Builder.forCondition at h
  refine does_ite (fun hend => ?_) fun hmore => ?_
  · rw [if_pos hend] at h
    exact does_advance.seq h
  · rw [if_neg (Bool.eq_false_iff.mp hmore)] at h
    exact (hexpression _).seq ((does_expect _ _).seq (does_emitJump ((does_act _).seq h)))

theorem does_forIncrement {loopStart : Nat} {k : Nat → Code}
    (h : (k (b.forIncrement expression loopStart).2).Does n (b.forIncrement expression loopStart).1
      b') :
    (forIncrement loopStart k).Does n b b' := by
  unfold Builder.forIncrement at h
  refine does_ite (fun hend => ?_) fun hmore => ?_
  · rw [if_pos hend] at h
    exact does_advance.seq h
  · rw [if_neg (Bool.eq_false_iff.mp hmore)] at h
    exact does_emitJump (does_look ((hexpression _).seq ((does_act _).seq ((does_expect _ _).seq
      ((does_act _).seq ((does_act _).seq h))))))

theorem does_returnStatement : returnStatement.Does n b (b.returnStatement expression) :=
  (does_act _).seq (does_choice does_advance ((hexpression _).seq (does_expect _ _)))

variable (hstatement : ∀ b, Code.statement.Does n b (statement b))
include hstatement

theorem does_declaration : declaration.Does n b (b.declaration statement expression) := by
  refine Does.seq ?_ (does_choice does_synchronize does_skip)
  exact does_choice (does_advance.seq (does_varDeclaration hexpression)) (hstatement b)

theorem does_ifStatement : ifStatement.Does n b (b.ifStatement statement expression) := by
  refine does_condition hexpression ((hstatement _).seq (does_bind ?_))
  exact (does_choice (does_advance.seq (hstatement _)) does_skip).seq (does_act _)

theorem does_whileStatement : whileStatement.Does n b (b.whileStatement statement expression) := by
  refine does_look (does_condition hexpression ((hstatement _).seq ?_))
  exact (does_act _).seq ((does_act _).seq (does_act _))

theorem does_forStatement : forStatement.Does n b (b.forStatement statement expression) := by
  refine (does_act _).seq ((does_expect _ _).seq ((does_forStart hexpression).seq (does_look ?_)))
  refine does_forCondition hexpression (does_forIncrement hexpression ?_)
  exact (hstatement _).seq ((does_act _).seq ((does_act _).seq (does_act _)))

variable (hmoves : ∀ b, At n b → (statement b).unread.length ≤ b.advance.unread.length)
  (hreads : ∀ b, (expression b).unread.length ≤ b.unread.length)
include hmoves hreads

theorem round_declaration (hb : At n b) (hmore : b.current.kind ≠ .endOfFile) :
    (call .declaration).Does n b (b.declaration statement expression) ∧
      (b.declaration statement expression).unread.length < b.unread.length :=
  ⟨does_call (does_declaration hexpression hstatement),
    unread_lt hb hmore (unread_declaration hreads (hmoves b hb))⟩

omit hexpression hstatement hmoves hreads in
theorem current_ne_of_block (h : Loop.block.more b = true) : b.current.kind ≠ .endOfFile := by
  simp only [Loop.more, Bool.and_eq_true] at h
  simpa [sees] using h.2

omit hexpression hstatement hmoves hreads in
theorem current_ne_of_text (h : Loop.text.more b = true) : b.current.kind ≠ .endOfFile := by
  simpa [Loop.more, sees] using h

theorem does_block : block.Does n b (b.block statement expression) := by
  refine Does.seq (does_loop (fun b hb hmore => ?_) _ (Nat.le_refl _)) (does_expect _ _)
  exact round_declaration hexpression hstatement hmoves hreads hb (current_ne_of_block hmore)

theorem does_statementWithin :
    statementWithin.Does n b (Builder.statementWithin statement expression b) := by
  refine does_look ?_
  unfold Builder.statementWithin
  generalize b.current.kind = kind
  split
  · exact does_advance.seq (does_printStatement hexpression)
  · exact does_advance.seq (does_forStatement hexpression hstatement)
  · exact does_advance.seq (does_ifStatement hexpression hstatement)
  · exact does_advance.seq (does_returnStatement hexpression)
  · exact does_advance.seq (does_whileStatement hexpression hstatement)
  · exact does_advance.seq ((does_act _).seq
      ((does_block hexpression hstatement hmoves hreads).seq (does_act _)))
  · -- The reader's own match on the kind may still be there, with the same cases.
    try split
    all_goals first | contradiction | exact does_expressionStatement hexpression

end Statements

theorem unread_statement {depth : Nat} (hn : b.nesting ≤ nestingMax)
    (hdepth : nestingMax < depth + b.nesting) :
    (Builder.statement depth b).unread.length ≤ b.advance.unread.length := by
  obtain ⟨depth, rfl⟩ : ∃ d, depth = d + 1 := Nat.exists_eq_add_one.mpr (by omega)
  refine unread_nested fun hroom => ?_
  obtain ⟨depth, rfl⟩ : ∃ d, depth = d + 1 := Nat.exists_eq_add_one.mpr (by omega)
  rw [← unread_deeper b (b.nesting + 1)]
  exact unread_statementWithin (closed_unread.expression _) (closed_unread.statement _)
    ((MovesOn.expression depth).unread _)

theorem does_statement (depth : Nat) (hn : n ≤ nestingMax) (hdepth : nestingMax < depth + n)
    (b : Builder) : Code.statement.Does n b (Builder.statement depth b) := by
  induction depth generalizing n b with
  | zero => exact absurd hdepth (by omega)
  | succ depth ih =>
      refine does_call (does_nested hn fun hlt b => ?_)
      refine does_statementWithin (fun b => does_operand depth hlt (by omega) .assignment b)
        (fun b => ih hlt (by omega) b) (fun b hb => ?_) (closed_unread.expression depth)
      exact unread_statement (by rw [hb.level]; exact hlt) (by rw [hb.level]; omega)

/-- All levels are left at the depth of a declaration at the top, so it reads one on any level. -/
theorem round_topDeclaration (hn : n ≤ nestingMax) (hb : At n b)
    (hmore : b.current.kind ≠ .endOfFile) :
    (call .declaration).Does n b b.topDeclaration ∧ b.topDeclaration.unread.length <
      b.unread.length := by
  refine round_declaration (fun b => does_operand _ hn (by omega) .assignment b)
    (fun b => does_statement _ hn (by omega) b) (fun b hb => ?_) (closed_unread.expression _) hb
      hmore
  exact unread_statement (by rw [hb.level]; exact hn) (by omega)

theorem does_program (tokens : List Token) :
    program.Does 0 { unread := tokens } (Builder.program tokens) := by
  refine does_advance.seq (Does.seq (does_loop (fun b hb hmore => ?_) _ (Nat.le_refl _))
    (does_advance.seq (does_act _)))
  exact round_topDeclaration (Nat.zero_le _) hb (current_ne_of_text hmore)

end Code

end StackScript.Reader
