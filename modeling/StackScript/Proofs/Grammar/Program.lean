import StackScript.Proofs.Grammar.Statement

/-!
Whole programs. A text that is read without a diagnostic has no fault among its tokens and
is a program of the grammar.
-/

namespace StackScript

theorem Token.sound_of_kind {t : Token} {k : TokenKind} (h : t.kind = k)
    (hk : ∀ reason, k ≠ .fault reason) : t.Sound := by
  intro reason
  rw [h]
  exact hk reason

namespace Tree

theorem ExprTokens.sound {n : Nat} {e : Expr} {ts : List Token} (h : ExprTokens n e ts) :
    ∀ t ∈ ts, t.Sound := by
  induction h with
  | nil h | true h | false h =>
      exact List.forall_mem_singleton.mpr (Token.sound_of_kind h nofun)
  | number h | string h | name h =>
      exact List.forall_mem_singleton.mpr (Token.sound_of_kind h.1 nofun)
  | group hl _ hr ih =>
      have hopen := Token.sound_of_kind hl nofun
      have hclose := Token.sound_of_kind hr nofun
      exact List.forall_mem_append.mpr
        ⟨List.forall_mem_cons.mpr ⟨hopen, ih⟩, List.forall_mem_singleton.mpr hclose⟩
  | @unary _ op _ _ h _ ih =>
      have hop := Token.sound_of_kind h (by cases op <;> nofun)
      exact List.forall_mem_cons.mpr ⟨hop, ih⟩
  | @binary _ op _ _ _ _ _ h _ ihl ihr =>
      have hop := Token.sound_of_kind h (by cases op <;> nofun)
      exact List.forall_mem_append.mpr ⟨ihl, List.forall_mem_cons.mpr ⟨hop, ihr⟩⟩
  | and _ h _ ihl ihr | or _ h _ ihl ihr =>
      have hop := Token.sound_of_kind h nofun
      exact List.forall_mem_append.mpr ⟨ihl, List.forall_mem_cons.mpr ⟨hop, ihr⟩⟩
  | assign h heq _ ih =>
      have hname := Token.sound_of_kind h.1 nofun
      have hequals := Token.sound_of_kind heq nofun
      exact List.forall_mem_cons.mpr ⟨hname, List.forall_mem_cons.mpr ⟨hequals, ih⟩⟩
  | looser _ ih => exact ih

theorem OptionalExpr.sound {e : Option Expr} {ts : List Token} (h : OptionalExpr e ts) :
    ∀ t ∈ ts, t.Sound := by
  cases h with
  | none => simp
  | some he => exact he.sound

theorem VarTokens.sound {s : Stmt} {ts : List Token} (h : VarTokens s ts) :
    ∀ t ∈ ts, t.Sound := by
  cases h with
  | bare hv h hsemi =>
      have hword := Token.sound_of_kind hv nofun
      have hname := Token.sound_of_kind h.1 nofun
      have hend := Token.sound_of_kind hsemi nofun
      simp [hword, hname, hend]
  | withValue hv h heq he hsemi =>
      have hword := Token.sound_of_kind hv nofun
      have hname := Token.sound_of_kind h.1 nofun
      have hequals := Token.sound_of_kind heq nofun
      have hend := Token.sound_of_kind hsemi nofun
      have hvalue := he.sound
      simpa [hword, hname, hequals, or_imp, forall_and, hend] using hvalue

theorem ForStartTokens.sound {s : Stmt} {ts : List Token} (h : ForStartTokens s ts) :
    ∀ t ∈ ts, t.Sound := by
  cases h with
  | absent h => exact List.forall_mem_singleton.mpr (Token.sound_of_kind h nofun)
  | var h => exact h.sound
  | expression h hsemi =>
      have hend := Token.sound_of_kind hsemi nofun
      exact List.forall_mem_append.mpr ⟨h.sound, List.forall_mem_singleton.mpr hend⟩

/-- Nothing that the grammar spells is a fault. -/
theorem sound_of_tokens (s : Stmt) : (∀ ts, StmtTokens s ts → ∀ t ∈ ts, t.Sound) ∧
    ∀ ts, DeclTokens s ts → ∀ t ∈ ts, t.Sound := by
  induction s with
  | skip =>
      refine ⟨fun ts h => (nomatch h), fun ts h => ?_⟩
      cases h
      simp
  | var x value => exact ⟨fun ts h => (nomatch h), fun ts h => nomatch h⟩
  | seq first rest ihf ihr =>
      refine ⟨fun ts h => (nomatch h), fun ts h => ?_⟩
      cases h with
      | var hfirst hrest => exact List.forall_mem_append.mpr ⟨hfirst.sound, ihr.2 _ hrest⟩
      | statement hfirst hrest => exact List.forall_mem_append.mpr ⟨ihf.1 _ hfirst, ihr.2 _ hrest⟩
  | print e =>
      refine ⟨fun ts h => ?_, fun ts h => nomatch h⟩
      cases h with
      | print hp he hsemi =>
          have hword := Token.sound_of_kind hp nofun
          have hend := Token.sound_of_kind hsemi nofun
          simpa [or_imp, forall_and, hword, hend] using he.sound
  | expression e =>
      refine ⟨fun ts h => ?_, fun ts h => nomatch h⟩
      cases h with
      | expression he hsemi =>
          have hend := Token.sound_of_kind hsemi nofun
          simpa [or_imp, forall_and, hend] using he.sound
  | block body ih =>
      refine ⟨fun ts h => ?_, fun ts h => nomatch h⟩
      cases h with
      | block hl hbody hr =>
          have hopen := Token.sound_of_kind hl nofun
          have hclose := Token.sound_of_kind hr nofun
          simpa [or_imp, forall_and, hopen, hclose] using ih.2 _ hbody
  | branch condition yes no ihy ihn =>
      refine ⟨fun ts h => ?_, fun ts h => nomatch h⟩
      cases h with
      | ifOnly hi hl hc hr hyes =>
          have hword := Token.sound_of_kind hi nofun
          have hopen := Token.sound_of_kind hl nofun
          have hclose := Token.sound_of_kind hr nofun
          simpa [or_imp, forall_and, hword, hopen, hclose] using ⟨hc.sound, ihy.1 _ hyes⟩
      | ifElse hi hl hc hr hyes hopen he hno =>
          have hword := Token.sound_of_kind hi nofun
          have hparen := Token.sound_of_kind hl nofun
          have hclose := Token.sound_of_kind hr nofun
          have helse := Token.sound_of_kind he nofun
          simpa [or_imp, forall_and, hword, hparen, hclose, helse]
            using ⟨hc.sound, ihy.1 _ hyes, ihn.1 _ hno⟩
  | whileLoop condition body ih =>
      refine ⟨fun ts h => ?_, fun ts h => nomatch h⟩
      cases h with
      | whileLoop hw hl hc hr hbody =>
          have hword := Token.sound_of_kind hw nofun
          have hopen := Token.sound_of_kind hl nofun
          have hclose := Token.sound_of_kind hr nofun
          simpa [or_imp, forall_and, hword, hopen, hclose] using ⟨hc.sound, ih.1 _ hbody⟩
  | forLoop first condition increment body ihf ih =>
      refine ⟨fun ts h => ?_, fun ts h => nomatch h⟩
      cases h with
      | forLoop hf hl hfirst hc hsemi hi hr hbody =>
          have hword := Token.sound_of_kind hf nofun
          have hopen := Token.sound_of_kind hl nofun
          have hend := Token.sound_of_kind hsemi nofun
          have hclose := Token.sound_of_kind hr nofun
          simpa [or_imp, forall_and, hword, hopen, hend, hclose]
            using ⟨hfirst.sound, hc.sound, hi.sound, ih.1 _ hbody⟩

theorem ProgramTokens.sound {tree : Stmt} {tokens : List Token} (h : ProgramTokens tree tokens) :
    ∀ t ∈ tokens, t.Sound := by
  obtain ⟨ts, last, hdecls, hlast, rfl⟩ := h
  have hend := Token.sound_of_kind hlast nofun
  exact List.forall_mem_append.mpr
    ⟨(sound_of_tokens tree).2 ts hdecls, List.forall_mem_singleton.mpr hend⟩

end Tree

namespace Builder

/-- The builder at the first token of a program. -/
def atStart (tokens : List Token) : Builder := ({ unread := tokens } : Builder).advance

/-- The builder behind the last declaration of a program. -/
def atEnd (tokens : List Token) : Builder :=
  repeatWhile (fun b => !b.sees .endOfFile) topDeclaration (atStart tokens).unread (atStart tokens)

theorem program_eq (tokens : List Token) : program tokens = (atEnd tokens).advance.emit .ret :=
  rfl

theorem clean_atStart {t : Token} {rest : List Token} (ht : t.Sound) :
    (atStart (t :: rest)).Clean ∧ (atStart (t :: rest)).upcoming = t :: rest := by
  have hfirst : atStart (t :: rest) = ({ unread := t :: rest } : Builder).moved t rest :=
    advance_of_sound rfl ht
  rw [hfirst]
  exact ⟨⟨rfl, rfl⟩, rfl⟩

/-- A program that is read without a diagnostic is one of the grammar. -/
theorem exists_programTokens {source : String} (hclean : ¬ (program (Token.scan source)).Soiled) :
    ∃ tree, Tree.ProgramTokens tree (Token.scan source) := by
  obtain ⟨front, last, hscan, hlast, hfront, hspelled⟩ := Token.scan_eq source
  have hend : ¬ (atEnd (Token.scan source)).Soiled := fun h =>
    hclean (closed_soiled.emit _ _ (closed_soiled.advance _ h))
  have hexpression (b : Builder) : b.Reads 0 exprPhrase (expression (nestingMax + 1) b) :=
    reads_expression (by simp [nestingMax]) (Nat.zero_le _) b
  have hstatement (b : Builder) : b.Reads 0 stmtPhrase (statement (nestingMax + 1) b) :=
    reads_statement (by simp [nestingMax]) (Nat.zero_le _) b
  have hreads := reads_declarations hexpression hstatement (fun b => !b.sees .endOfFile)
    (fun k => decide (k = .endOfFile)) (fun b => rfl) rfl (atStart (Token.scan source)).unread
    (atStart (Token.scan source)) le_rfl
  have hstart : ¬ (atStart (Token.scan source)).Soiled := fun h => hend (hreads.keeps h)
  obtain ⟨t, rest, htokens⟩ : ∃ t rest, Token.scan source = t :: rest :=
    List.exists_cons_of_ne_nil (by simp [hscan])
  have hsound : t.Sound := by
    by_contra hfault
    refine hstart ?_
    rw [htokens]
    exact advance_of_fault ⟨rfl, rfl⟩ rfl hfault
  have hbegun : (atStart (Token.scan source)).Clean ∧
      (atStart (Token.scan source)).upcoming = Token.scan source := by
    rw [htokens]
    exact clean_atStart hsound
  have hlegible : (atStart (Token.scan source)).Legible :=
    ⟨⟨front, last, hbegun.2.trans hscan, hlast, hfront⟩, by rwa [hbegun.2]⟩
  have hnesting : (atStart (Token.scan source)).nesting = 0 := by
    rw [htokens, atStart, advance_of_sound rfl hsound]
    rfl
  obtain ⟨ts, ⟨⟨tree, hdecls⟩, hstop⟩, htook⟩ := hreads.took hbegun.1 hlegible hnesting hend
  have hkind : (atEnd (Token.scan source)).current.kind = .endOfFile := of_decide_eq_true hstop
  have hunread : (atEnd (Token.scan source)).unread = [] :=
    (htook.legible hlegible).marked.unread_eq_nil_iff.mpr hkind
  refine ⟨tree, ts, (atEnd (Token.scan source)).current, hdecls, hkind, ?_⟩
  have hall : Token.scan source = ts ++ (atEnd (Token.scan source)).upcoming :=
    hbegun.2.symm.trans htook.upcoming
  rwa [Builder.upcoming, hunread] at hall

end Builder

end StackScript
