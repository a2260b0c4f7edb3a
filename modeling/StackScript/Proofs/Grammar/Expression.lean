import StackScript.Proofs.Builder.Reading
import StackScript.Proofs.Grammar.Precedence

/-!
What is read as an expression without a mistake is an expression of the grammar. The
operators after a first operand are taken in one by one; between two of them the tokens
so far spell one expression, and the next operator lies below its reach.
-/

namespace StackScript.Builder

open Tree TokenKind

/-- On this level, what is read as an operand is one: the tokens spell an expression of
the wanted rank, and no further operator of that rank follows. -/
structure ReadsOperands (operand : Precedence → Builder → Builder) (level : Nat) : Prop where
  keeps : ∀ p b, b.Soiled → (operand p b).Soiled
  reads : ∀ p b, b.Clean → b.Legible → b.nesting = level → ¬ (operand p b).Soiled →
    ∃ e ts, ExprTokens p.rank e ts ∧ b.Took ts (operand p b) ∧
      (operand p b).current.kind.Below p.rank

section Level

variable {operand : Precedence → Builder → Builder} {level : Nat}
  (hoperand : ReadsOperands operand level)
include hoperand

/-- An operand between steps that read nothing. -/
theorem ReadsOperands.between {b start b' : Builder} {p : Precedence} (hstart : b.Stationary start)
    (hfinish : (operand p start).Stationary b') (hclean : b.Clean) (hlegible : b.Legible)
    (hlevel : b.nesting = level) (hsoiled : ¬ b'.Soiled) :
    ∃ e ts, ExprTokens p.rank e ts ∧ b.Took ts b' ∧ b'.current.kind.Below p.rank := by
  have hinner := mt hfinish.keeps hsoiled
  have hbegun := hstart.took hclean (mt (hoperand.keeps p start) hinner)
  obtain ⟨e, ts, hexpr, htook, hbelow⟩ := hoperand.reads p start hbegun.clean
    (hbegun.legible hlegible) (hbegun.nesting.trans hlevel) hinner
  obtain ⟨hafter, hcurrent⟩ := hfinish.after (hbegun.trans htook) hsoiled
  exact ⟨e, ts, hexpr, hafter, hcurrent ▸ hbelow⟩

/-- A name, or an assignment to it. -/
theorem ReadsOperands.namedVariable {b : Builder} (hclean : b.Clean) (hlegible : b.Legible)
    (hlevel : b.nesting = level) (hkind : b.previous.kind = .identifier) (canAssign : Bool)
    (hsoiled : ¬ (b.namedVariable (operand .assignment) canAssign).Soiled) :
    ∃ m e ts, ExprTokens m e (b.previous :: ts) ∧
      b.Took ts (b.namedVariable (operand .assignment) canAssign) ∧
      (canAssign = true ∨ Precedence.unary.rank ≤ m) ∧
      (b.namedVariable (operand .assignment) canAssign).current.kind.Below (reach m) := by
  have haccess := Stationary.accessTo b b.previous.lexeme
  unfold Builder.namedVariable at hsoiled ⊢
  dsimp only at hsoiled ⊢
  generalize b.accessTo b.previous.lexeme = found at haccess hsoiled ⊢
  obtain ⟨found, access⟩ := found
  by_cases hassign : (canAssign && found.sees .assign) = true
  · rw [if_pos hassign] at hsoiled ⊢
    have hfinish := Stationary.emitWithByte (operand .assignment found.advance) access.set
      access.operand
    obtain ⟨hcan, hsees⟩ := Bool.and_eq_true_iff.mp hassign
    have hcurrent : found.current.kind = .assign := of_decide_eq_true hsees
    have hadvance : ¬ found.advance.Soiled :=
      mt (hoperand.keeps _ _) (mt hfinish.keeps hsoiled)
    have hfound := haccess.took hclean (mt (closed_soiled.advance _) hadvance)
    obtain ⟨hmoved, -⟩ := took_advance hfound.clean (hfound.legible hlegible)
      (by simp [hcurrent]) hadvance
    have hstart := hfound.trans hmoved
    obtain ⟨e, ts, hexpr, htook, hbelow⟩ := hoperand.between (Stationary.refl _) hfinish
      hstart.clean (hstart.legible hlegible) (hstart.nesting.trans hlevel) hsoiled
    exact ⟨Precedence.assignment.rank, .assign b.previous.lexeme e, found.current :: ts,
      .assign ⟨hkind, rfl⟩ hcurrent hexpr, hstart.trans htook, Or.inl hcan, hbelow⟩
  · rw [if_neg hassign] at hsoiled ⊢
    have hfinish := haccess.trans (Stationary.emitWithByte found access.get access.operand)
    exact ⟨primaryRank, .name b.previous.lexeme, [], .name ⟨hkind, rfl⟩,
      hfinish.took hclean hsoiled, Or.inr (by decide), (below_unary _).mono (by decide)⟩

/-- The first token of an expression with what belongs to it. -/
theorem ReadsOperands.lead {b : Builder} (hclean : b.Clean) (hlegible : b.Legible)
    (hlevel : b.nesting = level) (hspelled : b.previous.WellSpelled) {l : Lead}
    (hl : b.previous.kind.lead? = some l) (canAssign : Bool)
    (hsoiled : ¬ (b.lead operand canAssign l).Soiled) :
    ∃ m e ts, ExprTokens m e (b.previous :: ts) ∧ b.Took ts (b.lead operand canAssign l) ∧
      (canAssign = true ∨ Precedence.unary.rank ≤ m) ∧
      (b.lead operand canAssign l).current.kind.Below (reach m) := by
  have hprimary (k : TokenKind) : k.Below (reach primaryRank) := (below_unary k).mono (by decide)
  cases l with
  | group =>
      have hinner : ¬ (operand .assignment b).Soiled := mt (closed_soiled.expect _ _ _) hsoiled
      obtain ⟨e, ts, hexpr, htook, -⟩ := hoperand.reads .assignment b hclean hlegible hlevel hinner
      obtain ⟨hclose, hlast⟩ := took_expect htook.clean (htook.legible hlegible) (by decide) hsoiled
      exact ⟨primaryRank, .group e, _, .group (lead?_eq_group hl) hexpr hclose,
        htook.trans hlast, Or.inr (by decide), hprimary _⟩
  | unary op =>
      obtain ⟨u, hkind, -⟩ := lead?_eq_unary hl
      obtain ⟨e, ts, hexpr, htook, -⟩ := hoperand.between (Stationary.refl b)
        (Stationary.emit _ op) hclean hlegible hlevel hsoiled
      exact ⟨Precedence.unary.rank, .unary u e, ts, .unary hkind hexpr, htook,
        Or.inr (Nat.le_refl _), (below_unary _).mono (by decide)⟩
  | literal op =>
      have htook := (Stationary.emit b op).took hclean hsoiled
      rcases lead?_eq_literal hl with hkind | hkind | hkind
      · exact ⟨primaryRank, .nil, [], .nil hkind, htook, Or.inr (by decide), hprimary _⟩
      · exact ⟨primaryRank, .bool true, [], .true hkind, htook, Or.inr (by decide), hprimary _⟩
      · exact ⟨primaryRank, .bool false, [], .false hkind, htook, Or.inr (by decide), hprimary _⟩
  | number =>
      have hkind := lead?_eq_number hl
      obtain ⟨x, hx⟩ := Option.isSome_iff_exists.mp (hspelled.number hkind)
      simp only [Builder.lead, Builder.number, hx] at hsoiled ⊢
      have htook := (Stationary.emitConstant b _).took hclean hsoiled
      exact ⟨primaryRank, .number b.previous.lexeme, [], .number ⟨hkind, rfl⟩, htook,
        Or.inr (by decide), hprimary _⟩
  | string =>
      have hkind := lead?_eq_string hl
      obtain ⟨s, hs⟩ := hspelled.string hkind
      have htook := (Stationary.emitConstant b _).took hclean hsoiled
      exact ⟨primaryRank, .string s, [], .string ⟨hkind, hs⟩, htook, Or.inr (by decide), hprimary _⟩
  | identifier =>
      exact hoperand.namedVariable hclean hlegible hlevel (lead?_eq_identifier hl) canAssign hsoiled

/-- An operator that has been read, with its right operand. -/
theorem ReadsOperands.join {b : Builder} (hclean : b.Clean) (hlegible : b.Legible)
    (hlevel : b.nesting = level) {j : Join} (hj : b.previous.kind.join? = some j) {m : Nat}
    {e : Expr} {front : List Token} (hleft : ExprTokens m e front)
    (hreach : j.precedence.rank < reach m) (hsoiled : ¬ (b.join operand j).Soiled) :
    ∃ e' ts, ExprTokens j.precedence.rank e' (front ++ b.previous :: ts) ∧
      b.Took ts (b.join operand j) ∧
      (b.join operand j).current.kind.Below (reach j.precedence.rank) := by
  cases j with
  | binary precedence right ops =>
      obtain ⟨op, hkind, rfl, -, hright⟩ := join?_eq_binary hj
      obtain ⟨r, ts, hexpr, htook, hbelow⟩ := hoperand.between (Stationary.refl b)
        (Stationary.foldl_emit ops _) hclean hlegible hlevel hsoiled
      rw [hright] at hexpr hbelow
      exact ⟨.binary op e r, ts, .binary (hleft.weaken (le_of_lt_reach hreach)) hkind hexpr, htook,
        hbelow.mono (reach_of_equality_le op.equality_le_rank).ge⟩
  | conjunction =>
      obtain ⟨r, ts, hexpr, htook, hbelow⟩ := hoperand.between
        ((Stationary.emitJump b .jumpIfFalse).trans (Stationary.emit _ .pop))
        (Stationary.patchJump _ _) hclean hlegible hlevel hsoiled
      exact ⟨.and e r, ts, .and (hleft.weaken (lt_of_lt_reach (by decide) hreach))
        (join?_eq_conjunction hj) hexpr, htook, hbelow.mono (le_reach _)⟩
  | disjunction =>
      obtain ⟨r, ts, hexpr, htook, hbelow⟩ := hoperand.between
        ((Stationary.emitJump b .jumpIfFalse).trans ((Stationary.emitJump _ .jump).trans
          ((Stationary.patchJump _ _).trans (Stationary.emit _ .pop))))
        (Stationary.patchJump _ _) hclean hlegible hlevel hsoiled
      exact ⟨.or e r, ts, .or (hleft.weaken (lt_of_lt_reach (by decide) hreach))
        (join?_eq_disjunction hj) hexpr, htook, hbelow.mono (le_reach _)⟩

/-- The operators behind an expression of rank `m`, and what they make of it. -/
theorem ReadsOperands.joins {p : Precedence} {bound : List Token} {b : Builder} (hclean : b.Clean)
    (hlegible : b.Legible) (hlevel : b.nesting = level) (hbound : b.unread.length ≤ bound.length)
    {m : Nat} {e : Expr} {front : List Token} (hleft : ExprTokens m e front) (hm : p.rank ≤ m)
    (hbelow : b.current.kind.Below (reach m))
    (hsoiled : ¬ (repeatWhile (joinsAt p) (joinNext operand) bound b).Soiled) :
    ∃ e' ts, ExprTokens p.rank e' (front ++ ts) ∧
      b.Took ts (repeatWhile (joinsAt p) (joinNext operand) bound b) ∧
      (repeatWhile (joinsAt p) (joinNext operand) bound b).current.kind.Below p.rank := by
  have hstop (b : Builder) (hno : b.joinsAt p = false) : b.current.kind.Below p.rank := by
    intro j hj
    simpa [joinsAt, hj, Precedence.admits] using hno
  induction bound generalizing b m e front with
  | nil =>
      have hend : b.current.kind = .endOfFile :=
        hlegible.marked.unread_eq_nil_iff.mp (List.eq_nil_of_length_eq_zero (by simpa using hbound))
      refine ⟨e, [], by simpa using hleft.weaken hm, Took.nil hclean, hstop b ?_⟩
      simp [joinsAt, hend, join?]
  | cons _ bound ih =>
      cases hjoins : b.joinsAt p with
      | false =>
          simp only [Builder.repeatWhile, hjoins] at hsoiled ⊢
          exact ⟨e, [], by simpa using hleft.weaken hm, Took.nil hclean, hstop b hjoins⟩
      | true =>
          simp only [Builder.repeatWhile, hjoins] at hsoiled ⊢
          obtain ⟨j, hj, hadmits⟩ : ∃ j, b.current.kind.join? = some j ∧ p.admits j.precedence := by
            simpa [joinsAt, Option.any_eq_true] using hjoins
          have hnext : ¬ (b.joinNext operand).Soiled := by
            refine mt (closed_soiled.repeatWhile ?_ _ _) hsoiled
            exact closed_soiled.joinNext hoperand.keeps
          have hadvance : ¬ b.advance.Soiled := by
            refine mt (fun hfault => ?_) hnext
            unfold Builder.joinNext
            dsimp only
            split
            · exact closed_soiled.join hoperand.keeps _ _ hfault
            · exact hfault
          obtain ⟨hmoved, hprevious⟩ :=
            took_advance hclean hlegible (join?_ne_endOfFile hj) hadvance
          have hnextEq : b.joinNext operand = b.advance.join operand j := by
            simp only [Builder.joinNext, hprevious, hj]
          obtain ⟨e', ts, hexpr, htook, hbelow'⟩ := hoperand.join hmoved.clean
            (hmoved.legible hlegible) (hmoved.nesting.trans hlevel) (hprevious ▸ hj) hleft
            (hbelow j hj) (hnextEq ▸ hnext)
          rw [hprevious] at hexpr
          rw [← hnextEq] at htook hbelow'
          have hread := hmoved.trans htook
          have hshorter : (b.joinNext operand).unread.length ≤ bound.length := by
            have hlength := hread.length_unread
            simp only [List.length_append, List.length_cons, List.length_nil] at hlength hbound
            omega
          obtain ⟨e'', us, hwhole, hrest, hend⟩ := ih hread.clean (hread.legible hlegible)
            (hread.nesting.trans hlevel) hshorter hexpr (by simpa [Precedence.admits] using hadmits)
            hbelow' hsoiled
          refine ⟨e'', b.current :: ts ++ us, ?_, hread.trans hrest, hend⟩
          simpa using hwhole

/-- A whole operand on its level. -/
theorem ReadsOperands.within {p : Precedence} {b : Builder} (hclean : b.Clean)
    (hlegible : b.Legible) (hlevel : b.nesting = level)
    (hsoiled : ¬ (operandWithin operand p b).Soiled) :
    ∃ e ts, ExprTokens p.rank e ts ∧ b.Took ts (operandWithin operand p b) ∧
      (operandWithin operand p b).current.kind.Below p.rank := by
  unfold operandWithin at hsoiled ⊢
  simp only [previous_advance] at hsoiled ⊢
  cases hl : b.current.kind.lead? with
  | none =>
      simp only [hl] at hsoiled
      have hadvance : ¬ b.advance.Soiled := mt (closed_soiled.errorAtPrevious _ _) hsoiled
      exact absurd ((hclean.advance hadvance).soiled_errorAtPrevious _) hsoiled
  | some l =>
      simp only [hl] at hsoiled ⊢
      generalize hjoined : repeatWhile (joinsAt p) (joinNext operand) _ _ = b' at hsoiled ⊢
      have hjoins : ¬ b'.Soiled := by
        refine mt (fun h => ?_) hsoiled
        split
        · exact (closed_soiled.advance _ h).report _ _
        · exact h
      have hlead : ¬ (b.advance.lead operand (decide (p = .assignment)) l).Soiled := by
        refine mt (fun h => ?_) hjoins
        rw [← hjoined]
        exact closed_soiled.repeatWhile (closed_soiled.joinNext hoperand.keeps) _ _ h
      have hadvance := mt (closed_soiled.lead hoperand.keeps _ _ _) hlead
      obtain ⟨hmoved, hprevious⟩ := took_advance hclean hlegible (lead?_ne_endOfFile hl) hadvance
      have hspelled : b.current.WellSpelled := hlegible.spelled _ (List.mem_cons_self ..)
      obtain ⟨m, e, ts, hexpr, htook, hm, hbelow⟩ := hoperand.lead hmoved.clean
        (hmoved.legible hlegible) (hmoved.nesting.trans hlevel) (hprevious ▸ hspelled)
        (hprevious ▸ hl) _ hlead
      rw [hprevious] at hexpr
      have hread := hmoved.trans htook
      have hrank : p.rank ≤ m := by
        rcases hm with hassign | hunary
        · rw [of_decide_eq_true hassign]
          exact Nat.zero_le m
        · exact Nat.le_trans p.rank_le_unary hunary
      rw [← hjoined] at hjoins
      obtain ⟨e', us, hwhole, hrest, hend⟩ := hoperand.joins hread.clean (hread.legible hlegible)
        (hread.nesting.trans hlevel) (Nat.le_refl _) hexpr hrank hbelow hjoins
      rw [hjoined] at hrest hend hjoins
      have hall := hread.trans hrest
      by_cases htarget : (decide (p = .assignment) && b'.sees .assign) = true
      · rw [if_pos htarget] at hsoiled
        have hmore := mt (closed_soiled.errorAtPrevious _ _) hsoiled
        exact absurd ((hall.clean.advance hmore).soiled_errorAtPrevious _) hsoiled
      · rw [if_neg htarget]
        exact ⟨e', _, by simpa using hwhole, hall, hend⟩

end Level

/-- A level opened around a reading that goes well. -/
theorem took_nested {body : Builder → Builder} {b : Builder} (hclean : b.Clean)
    (hsoiled : ¬ (nested body b).Soiled) :
    b.nesting ≠ nestingMax ∧ ¬ (body b.deeper).Soiled ∧
      ∀ ts, b.deeper.Took ts (body b.deeper) → b.Took ts (nested body b) := by
  have hroom : b.nesting ≠ nestingMax := fun hfull => hsoiled (nested_of_full hclean hfull)
  rw [nested_of_room body hroom] at hsoiled ⊢
  refine ⟨hroom, hsoiled, fun ts htook => ⟨⟨htook.clean.errors, htook.clean.calm⟩,
    htook.upcoming, htook.previous, ?_⟩⟩
  exact congrArg (· - 1) htook.nesting

/-- As long as the bound on the recursion exceeds the levels that may still be opened,
what is read as an operand without a mistake is one. -/
theorem readsOperands_operand (depth level : Nat) (hdepth : nestingMax < depth + level)
    (hlevel : level ≤ nestingMax) : ReadsOperands (operand depth) level := by
  induction depth generalizing level with
  | zero => omega
  | succ depth ih =>
      refine ⟨fun p b => closed_soiled.operand (depth + 1) p b, ?_⟩
      intro p b hclean hlegible hnesting hsoiled
      obtain ⟨hroom, hbody, hclose⟩ := took_nested hclean hsoiled
      have hnext : ReadsOperands (operand depth) (level + 1) := ih (level + 1) (by omega) (by omega)
      have hdeeper : b.deeper.Clean := ⟨hclean.errors, hclean.calm⟩
      have hahead : b.deeper.Legible := ⟨hlegible.marked, hlegible.spelled⟩
      obtain ⟨e, ts, hexpr, htook, hbelow⟩ :=
        hnext.within hdeeper hahead (congrArg (· + 1) hnesting) hbody
      refine ⟨e, ts, hexpr, hclose ts htook, ?_⟩
      have hcurrent : (operand (depth + 1) p b).current =
          (operandWithin (operand depth) p b.deeper).current := by
        rw [operand, nested_of_room _ hroom]
      rwa [hcurrent]

end StackScript.Builder
