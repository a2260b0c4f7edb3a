import StackScript.Proofs.Grammar.Expression

/-!
What is read as a statement or declaration without a mistake is one of the grammar. Each
construct is a chain of phrases with stationary steps between them. An `else` is taken in
wherever it can be, so none follows a statement that could still take it.
-/

namespace StackScript.Builder

open Tree

/-- The phrase of a whole expression. -/
def exprPhrase : Phrase := fun ts _ => ∃ e, WholeExpr e ts

/-- The phrase of a statement with everything that belongs to it. -/
def stmtPhrase : Phrase := fun ts next =>
  ∃ s, StmtTokens s ts ∧ (s.takesElse = true → next.kind ≠ .elseWord)

/-- The phrase of a variable declaration. -/
def varPhrase : Phrase := fun ts _ => ∃ s, VarTokens s ts

theorem reads_readVariable (level : Nat) (b : Builder) :
    b.Reads level (tokenPhrase .identifier) b.readVariable.1 := by
  have hname := (Reads.expect level b .identifier .variableName (by decide)).stay
    (Stationary.declareVariable _)
  unfold readVariable
  dsimp only
  split
  · exact hname
  · exact hname.stay (Stationary.makeConstant _ _)

section Level

variable {level : Nat} {expression : Builder → Builder}
  (hexpression : ∀ b, Reads level b exprPhrase (expression b))

include hexpression

theorem reads_varDeclaration {b : Builder} (hvar : b.sees .varWord = true) :
    b.Reads level varPhrase (b.advance.varDeclaration expression) := by
  have hword : b.Reads level (tokenPhrase .varWord) b.advance :=
    Reads.advance level (of_decide_eq_true hvar) (by decide)
  have hname := hword.followed (reads_readVariable level b.advance)
  have hend (b : Builder) (name : UInt8) : b.Reads level (tokenPhrase .semicolon)
      ((b.expect .semicolon .semicolonAfterDeclaration).defineVariable name) :=
    (Reads.expect level _ _ _ (by decide)).stay (Stationary.defineVariable _ _)
  unfold varDeclaration
  dsimp only
  by_cases hassign : b.advance.readVariable.1.sees .assign = true
  · rw [if_pos hassign]
    have hequals : Reads level _ (tokenPhrase .assign) b.advance.readVariable.1.advance :=
      Reads.advance level (of_decide_eq_true hassign) (by decide)
    refine Reads.mono (hname.followed (hequals.followed ((hexpression _).followed (hend _ _)))) ?_
    rintro _ _ ⟨_, _, _, rfl, ⟨_, _, _, rfl, ⟨v, rfl, hv⟩, ⟨t, rfl, ht⟩⟩, _, _, _, rfl,
      ⟨eq, rfl, heq⟩, ts, _, _, rfl, ⟨e, he⟩, semi, rfl, hsemi⟩
    exact ⟨.var t.lexeme (some e), .withValue hv ⟨ht, rfl⟩ heq he hsemi⟩
  · rw [if_neg hassign]
    refine Reads.mono (hname.followed (Reads.afterStay (Stationary.emit _ _) (hend _ _))) ?_
    rintro _ _ ⟨_, _, _, rfl, ⟨_, _, _, rfl, ⟨v, rfl, hv⟩, ⟨t, rfl, ht⟩⟩, semi, rfl, hsemi⟩
    exact ⟨.var t.lexeme none, .bare hv ⟨ht, rfl⟩ hsemi⟩

theorem reads_expressionStatement (b : Builder) :
    b.Reads level (exprPhrase.followed (tokenPhrase .semicolon))
      (b.expressionStatement expression) :=
  ((hexpression b).followed (Reads.expect level _ _ _ (by decide))).stay (Stationary.emit _ _)

theorem reads_printStatement (b : Builder) :
    b.Reads level (exprPhrase.followed (tokenPhrase .semicolon)) (b.printStatement expression) :=
  ((hexpression b).followed (Reads.expect level _ _ _ (by decide))).stay (Stationary.emit _ _)

theorem reads_condition (opening : Expectation) (b : Builder) :
    b.Reads level ((tokenPhrase .leftParen).followed
      (exprPhrase.followed (tokenPhrase .rightParen))) (b.condition expression opening).1 := by
  have hread := (Reads.expect level b .leftParen opening (by decide)).followed
    ((hexpression _).followed (Reads.expect level _ .rightParen .parenAfterCondition (by decide)))
  exact hread.stay ((Stationary.emitJump _ _).trans (Stationary.emit _ _))

/-- The first clause of a `for`. -/
theorem reads_forStart (b : Builder) :
    b.Reads level (fun ts _ => ∃ s, ForStartTokens s ts) (b.forStart expression) := by
  unfold forStart
  by_cases hsemi : b.sees .semicolon = true
  · rw [if_pos hsemi]
    refine Reads.mono (Reads.advance level (of_decide_eq_true hsemi) (by decide)) ?_
    rintro _ _ ⟨t, rfl, ht⟩
    exact ⟨.skip, .absent ht⟩
  · rw [if_neg hsemi]
    by_cases hvar : b.sees .varWord = true
    · rw [if_pos hvar]
      refine Reads.mono (reads_varDeclaration hexpression hvar) ?_
      rintro _ _ ⟨s, hs⟩
      exact ⟨s, .var hs⟩
    · rw [if_neg hvar]
      refine Reads.mono (reads_expressionStatement hexpression b) ?_
      rintro _ _ ⟨_, _, _, rfl, ⟨e, he⟩, t, rfl, ht⟩
      exact ⟨.expression e, .expression he ht⟩

theorem reads_forCondition (b : Builder) :
    b.Reads level (Phrase.followed (fun ts _ => ∃ e, OptionalExpr e ts) (tokenPhrase .semicolon))
      (b.forCondition expression).1 := by
  unfold forCondition
  by_cases hsemi : b.sees .semicolon = true
  · rw [if_pos hsemi]
    refine Reads.mono (Reads.advance level (of_decide_eq_true hsemi) (by decide)) ?_
    rintro _ next ⟨t, rfl, ht⟩
    exact ⟨[], [t], t, rfl, ⟨none, .none⟩, t, rfl, ht⟩
  · rw [if_neg hsemi]
    have hread := ((hexpression b).followed
      (Reads.expect level _ .semicolon .semicolonAfterLoopCondition (by decide))).stay
        ((Stationary.emitJump _ .jumpIfFalse).trans (Stationary.emit _ .pop))
    refine Reads.mono hread ?_
    rintro _ _ ⟨ts, us, t, rfl, ⟨e, he⟩, hend⟩
    exact ⟨ts, us, t, rfl, ⟨some e, .some he⟩, hend⟩

theorem reads_forIncrement (loopStart : Nat) (b : Builder) :
    b.Reads level (Phrase.followed (fun ts _ => ∃ e, OptionalExpr e ts) (tokenPhrase .rightParen))
      (b.forIncrement expression loopStart).1 := by
  unfold forIncrement
  by_cases hparen : b.sees .rightParen = true
  · rw [if_pos hparen]
    refine Reads.mono (Reads.advance level (of_decide_eq_true hparen) (by decide)) ?_
    rintro _ next ⟨t, rfl, ht⟩
    exact ⟨[], [t], t, rfl, ⟨none, .none⟩, t, rfl, ht⟩
  · rw [if_neg hparen]
    have hinner (b : Builder) := ((hexpression b).stay (Stationary.emit _ .pop)).followed
      (Reads.expect level _ .rightParen .parenAfterForClauses (by decide))
    have hread := (Reads.afterStay (Stationary.emitJump b .jump) (hinner _)).stay
      ((Stationary.emitLoop _ loopStart).trans (Stationary.patchJump _ (b.emitJump .jump).2))
    refine Reads.mono hread ?_
    rintro _ _ ⟨ts, us, t, rfl, ⟨e, he⟩, hend⟩
    exact ⟨ts, us, t, rfl, ⟨some e, .some he⟩, hend⟩

section Statements

variable {statement : Builder → Builder} (hstatement : ∀ b, Reads level b stmtPhrase (statement b))

include hstatement

theorem reads_ifStatement {b : Builder} (hif : b.current.kind = .ifWord) :
    b.Reads level stmtPhrase (b.advance.ifStatement statement expression) := by
  have hword : b.Reads level (tokenPhrase .ifWord) b.advance := Reads.advance level hif (by decide)
  have htest := hword.followed (reads_condition hexpression .parenAfterIf b.advance)
  unfold ifStatement
  dsimp only
  generalize (b.advance.condition expression .parenAfterIf).2 = thenJump
  have hyes := ((hstatement (b.advance.condition expression .parenAfterIf).1).stay
    (Stationary.otherwise thenJump _)).atCurrent
  generalize (Builder.otherwise thenJump _) = split at hyes ⊢
  by_cases helse : split.1.sees .elseWord = true
  · rw [if_pos helse]
    have hno := (Reads.advance level (of_decide_eq_true helse) (by decide)).followed
      ((hstatement split.1.advance).stay (Stationary.patchJump _ split.2))
    refine Reads.mono ((htest.followed hyes).followed hno) ?_
    rintro _ _ ⟨_, _, _, rfl, ⟨_, _, _, rfl, ⟨_, _, _, rfl, ⟨i, rfl, hi⟩, _, _, _, rfl,
      ⟨l, rfl, hl⟩, ts, _, _, rfl, ⟨e, he⟩, r, rfl, hr⟩, ⟨yes, hyes, hopen⟩, rfl⟩, _, _, _, rfl,
      ⟨w, rfl, hw⟩, no, hno, hclosed⟩
    have hyesOpen : yes.takesElse = false :=
      Bool.eq_false_iff.mpr fun h => hopen h (of_decide_eq_true helse)
    refine ⟨.branch e yes no, ?_, ?_⟩
    · simpa using StmtTokens.ifElse hi hl he hr hyes hyesOpen hw hno
    · intro htakes
      cases no
      case skip => cases hno
      all_goals exact hclosed htakes
  · rw [if_neg helse]
    refine Reads.mono ((htest.followed hyes).stay (Stationary.patchJump _ split.2)) ?_
    rintro _ _ ⟨_, _, _, rfl, ⟨_, _, _, rfl, ⟨i, rfl, hi⟩, _, _, _, rfl, ⟨l, rfl, hl⟩, ts, _, _,
      rfl, ⟨e, he⟩, r, rfl, hr⟩, ⟨yes, hyes, -⟩, rfl⟩
    refine ⟨.branch e yes .skip, by simpa using StmtTokens.ifOnly hi hl he hr hyes, fun _ => ?_⟩
    exact of_decide_eq_false (Bool.eq_false_iff.mpr helse)

theorem reads_whileStatement {b : Builder} (hwhile : b.current.kind = .whileWord) :
    b.Reads level stmtPhrase (b.advance.whileStatement statement expression) := by
  have hword : b.Reads level (tokenPhrase .whileWord) b.advance :=
    Reads.advance level hwhile (by decide)
  have hread := (hword.followed ((reads_condition hexpression .parenAfterWhile b.advance).followed
    (hstatement _))).stay ((Stationary.emitLoop _ b.advance.chunk.size).trans
      ((Stationary.patchJump _ (b.advance.condition expression .parenAfterWhile).2).trans
        (Stationary.emit _ .pop)))
  refine Reads.mono hread ?_
  rintro _ next ⟨_, _, _, rfl, ⟨w, rfl, hw⟩, _, _, _, rfl, ⟨_, _, _, rfl, ⟨l, rfl, hl⟩, ts, _, _,
    rfl, ⟨e, he⟩, r, rfl, hr⟩, body, hbody, hopen⟩
  exact ⟨.whileLoop e body, by simpa using StmtTokens.whileLoop hw hl he hr hbody, hopen⟩

theorem reads_forStatement {b : Builder} (hfor : b.current.kind = .forWord) :
    b.Reads level stmtPhrase (b.advance.forStatement statement expression) := by
  have hword : b.Reads level (tokenPhrase .forWord) b.advance :=
    Reads.advance level hfor (by decide)
  have hopening (b : Builder) : b.Reads level _ (b.expect .leftParen .parenAfterFor) :=
    Reads.expect level _ _ _ (by decide)
  have hclauses (b : Builder) := (hopening b).followed ((reads_forStart hexpression _).followed
    ((reads_forCondition hexpression _).followed (reads_forIncrement hexpression
      ((b.expect .leftParen .parenAfterFor).forStart expression).chunk.size _)))
  have hread := hword.followed (Reads.afterStay (Stationary.beginScope b.advance)
    ((hclauses b.advance.beginScope).followed ((hstatement _).stay
      ((Stationary.emitLoop _ (b.advance.beginScope.forClauses expression).2.2).trans
        ((Stationary.forExit (b.advance.beginScope.forClauses expression).2.1 _).trans
          (Stationary.endScope _))))))
  refine Reads.mono hread ?_
  rintro _ next ⟨_, _, _, rfl, ⟨f, rfl, hf⟩, _, _, _, rfl, ⟨_, _, _, rfl, ⟨l, rfl, hl⟩, ts, _, _,
    rfl, ⟨first, hfirst⟩, _, _, _, rfl, ⟨us, _, _, rfl, ⟨condition, hc⟩, semi, rfl, hsemi⟩, vs, _,
    _, rfl, ⟨increment, hi⟩, r, rfl, hr⟩, body, hbody, hopen⟩
  refine ⟨.forLoop first condition increment body, ?_, hopen⟩
  simpa using StmtTokens.forLoop hf hl hfirst hc hsemi hi hr hbody

theorem reads_declaration (b : Builder) :
    b.Reads level (fun ts _ => ∃ s, VarTokens s ts ∨ StmtTokens s ts)
      (b.declaration statement expression) := by
  have hread : b.Reads level (fun ts _ => ∃ s, VarTokens s ts ∨ StmtTokens s ts)
      (if b.sees .varWord then b.advance.varDeclaration expression else statement b) := by
    by_cases hvar : b.sees .varWord = true
    · rw [if_pos hvar]
      refine Reads.mono (reads_varDeclaration hexpression hvar) ?_
      rintro _ _ ⟨s, hs⟩
      exact ⟨s, Or.inl hs⟩
    · rw [if_neg hvar]
      refine Reads.mono (hstatement b) ?_
      rintro _ _ ⟨s, hs, -⟩
      exact ⟨s, Or.inr hs⟩
  unfold declaration
  generalize (if b.sees .varWord then _ else _) = b' at hread ⊢
  dsimp only
  by_cases hpanic : b'.panicking = true
  · rw [if_pos hpanic]
    refine ⟨fun h => closed_soiled.synchronize b' (hread.keeps h), ?_⟩
    intro hclean hlegible hlevel hsoiled
    obtain ⟨ts, -, htook⟩ := hread.took hclean hlegible hlevel
      (mt (closed_soiled.synchronize b') hsoiled)
    exact absurd htook.clean.calm (by simp [hpanic])
  · rw [if_neg hpanic]
    exact hread

/-- Declarations are read up to a token that stops them. -/
theorem reads_declarations (more : Builder → Bool) (stop : TokenKind → Bool)
    (hmore : ∀ b : Builder, more b = !stop b.current.kind) (hstop : stop .endOfFile = true)
    (bound : List Token) (b : Builder) (hbound : b.unread.length ≤ bound.length) :
    b.Reads level (fun ts next => (∃ s, DeclTokens s ts) ∧ stop next.kind = true)
      (repeatWhile more (declaration statement expression) bound b) := by
  have hdeclaration := reads_declaration hexpression hstatement
  have hkeeps (bound : List Token) (b : Builder) : b.Soiled →
      (repeatWhile more (declaration statement expression) bound b).Soiled :=
    closed_soiled.repeatWhile (fun b => (hdeclaration b).keeps) bound b
  refine ⟨hkeeps bound b, ?_⟩
  induction bound generalizing b with
  | nil =>
      intro hclean hlegible _ _
      have hend : b.current.kind = .endOfFile :=
        hlegible.marked.unread_eq_nil_iff.mp (List.eq_nil_of_length_eq_zero (by simpa using hbound))
      exact ⟨[], ⟨⟨.skip, .skip⟩, by rw [repeatWhile, hend]; exact hstop⟩, Took.nil hclean⟩
  | cons _ bound ih =>
      intro hclean hlegible hlevel hsoiled
      cases hgo : more b with
      | false =>
          have hstopped : stop b.current.kind = true := by simpa [hmore] using hgo
          simp only [repeatWhile, hgo, Bool.false_eq_true, if_false]
          exact ⟨[], ⟨⟨.skip, .skip⟩, hstopped⟩, Took.nil hclean⟩
      | true =>
          simp only [repeatWhile, hgo, if_true] at hsoiled ⊢
          obtain ⟨ts, ⟨first, hfirst⟩, htook⟩ :=
            (hdeclaration b).took hclean hlegible hlevel (mt (hkeeps bound _) hsoiled)
          have hne : ts ≠ [] := hfirst.elim VarTokens.ne_nil StmtTokens.ne_nil
          have hshorter : (b.declaration statement expression).unread.length ≤ bound.length := by
            have hlength := htook.length_unread
            have hpos := List.length_pos_of_ne_nil hne
            simp only [List.length_cons] at hbound
            omega
          obtain ⟨us, ⟨⟨rest, hrest⟩, hstopped⟩, hmoved⟩ := ih _ hshorter htook.clean
            (htook.legible hlegible) (htook.nesting.trans hlevel) hsoiled
          refine ⟨ts ++ us, ⟨⟨.seq first rest, ?_⟩, hstopped⟩, htook.trans hmoved⟩
          exact hfirst.elim (.var · hrest) (.statement · hrest)

theorem reads_block {b : Builder} (hbrace : b.current.kind = .leftBrace) :
    b.Reads level stmtPhrase (b.advance.beginScope.block statement expression).endScope := by
  have hopening : b.Reads level (tokenPhrase .leftBrace) b.advance :=
    Reads.advance level hbrace (by decide)
  have hbody := reads_declarations hexpression hstatement
    (fun b => !b.sees .rightBrace && !b.sees .endOfFile)
    (fun kind => decide (kind = .rightBrace) || decide (kind = .endOfFile))
    (fun b => by simp [sees]) rfl b.advance.beginScope.unread b.advance.beginScope (Nat.le_refl _)
  have hclosing (b : Builder) : b.Reads level (tokenPhrase .rightBrace)
      (b.expect .rightBrace .braceAfterBlock).endScope :=
    (Reads.expect level _ _ _ (by decide)).stay (Stationary.endScope _)
  refine Reads.mono (hopening.followed (Reads.afterStay (Stationary.beginScope _)
    (hbody.followed (hclosing _)))) ?_
  rintro _ _ ⟨_, _, _, rfl, ⟨l, rfl, hl⟩, ts, _, _, rfl, ⟨⟨body, hbody⟩, -⟩, r, rfl, hr⟩
  exact ⟨.block body, .block hl hbody hr, fun h => nomatch h⟩

theorem reads_statementWithin (b : Builder) :
    b.Reads level stmtPhrase (statementWithin statement expression b) := by
  unfold statementWithin
  split
  case h_1 hprint =>
    have hword : b.Reads level (tokenPhrase .printWord) b.advance :=
      Reads.advance level hprint (by decide)
    refine Reads.mono (hword.followed (reads_printStatement hexpression _)) ?_
    rintro _ _ ⟨_, _, _, rfl, ⟨p, rfl, hp⟩, ts, _, _, rfl, ⟨e, he⟩, semi, rfl, hsemi⟩
    exact ⟨.print e, .print hp he hsemi, fun h => nomatch h⟩
  case h_2 hfor => exact reads_forStatement hexpression hstatement hfor
  case h_3 hif => exact reads_ifStatement hexpression hstatement hif
  case h_4 hreturn =>
    -- The statement is reported before anything of it is read.
    have hrest (b : Builder) : b.Soiled → (if b.sees .semicolon then b.advance else
        (expression b).expect .semicolon .semicolonAfterReturnValue).Soiled := by
      intro hsoiled
      split
      · exact closed_soiled.advance b hsoiled
      · exact closed_soiled.expect _ _ _ ((hexpression b).keeps hsoiled)
    refine Reads.never (fun h => hrest _ ?_) (fun hclean => ?_)
    · exact (closed_soiled.advance b h).report _ _
    · by_cases hadvance : b.advance.Soiled
      · exact hrest _ (hadvance.report _ _)
      · exact hrest _ ((hclean.advance hadvance).soiled_errorAtPrevious _)
  case h_5 hwhile => exact reads_whileStatement hexpression hstatement hwhile
  case h_6 hbrace => exact reads_block hexpression hstatement hbrace
  case h_7 =>
    refine Reads.mono (reads_expressionStatement hexpression b) ?_
    rintro _ _ ⟨ts, _, _, rfl, ⟨e, he⟩, semi, rfl, hsemi⟩
    exact ⟨.expression e, .expression he hsemi, fun h => nomatch h⟩

end Statements

end Level

theorem reads_expression {depth level : Nat} (hdepth : nestingMax < depth + level)
    (hlevel : level ≤ nestingMax) (b : Builder) :
    b.Reads level exprPhrase (expression depth b) where
  keeps := closed_soiled.expression depth b
  took hclean hlegible hnesting hsoiled := by
    obtain ⟨e, ts, hexpr, htook, -⟩ := (readsOperands_operand depth level hdepth hlevel).reads
      .assignment b hclean hlegible hnesting hsoiled
    exact ⟨ts, ⟨e, hexpr⟩, htook⟩

theorem reads_statement {depth level : Nat} (hdepth : nestingMax < depth + level)
    (hlevel : level ≤ nestingMax) (b : Builder) :
    b.Reads level stmtPhrase (statement depth b) := by
  induction depth generalizing level b with
  | zero => omega
  | succ depth ih =>
      refine ⟨closed_soiled.statement (depth + 1) b, fun hclean hlegible hnesting hsoiled => ?_⟩
      obtain ⟨hroom, hbody, hclose⟩ := took_nested hclean hsoiled
      have hexpression (b : Builder) : b.Reads (level + 1) exprPhrase (expression depth b) :=
        reads_expression (by omega) (by omega) b
      have hstatement (b : Builder) : b.Reads (level + 1) stmtPhrase (statement depth b) :=
        ih (by omega) (by omega) b
      have hdeeper : b.deeper.Clean := ⟨hclean.errors, hclean.calm⟩
      have hahead : b.deeper.Legible := ⟨hlegible.marked, hlegible.spelled⟩
      obtain ⟨ts, hphrase, htook⟩ := (reads_statementWithin hexpression hstatement b.deeper).took
        hdeeper hahead (congrArg (· + 1) hnesting) hbody
      refine ⟨ts, ?_, hclose ts htook⟩
      rw [statement, nested_of_room _ hroom]
      exact hphrase

end StackScript.Builder
