import StackScript.Proofs.Lockstep.Basic

/-!
Variables and expressions in lockstep.
-/

namespace StackScript.Builder.Lockstep

variable {L : Lockstep} {R S T : Builder → Builder → Prop} {f g : Builder → Builder}
    {b b' : Builder}

section Variables

/-- The same access on both sides, with related operands. -/
def Accesses (L : Lockstep) (a a' : Access) : Prop :=
  a.get = a'.get ∧ a.set = a'.set ∧ L.operands a.operand a'.operand

theorem Tight.resolveLocal (h : L.Tight b b') (name : String) :
    L.TightWith (b.resolveLocal name) (b'.resolveLocal name) Eq := by
  refine h.bind (L.closed.resolveLocal b name) (L.closed.resolveLocal b' name) fun h => ?_
  unfold Builder.resolveLocal
  rw [(L.resembles (L.loosen h)).locals]
  split
  · exact Or.inl ⟨h, rfl⟩
  · dsimp only
    split
    · exact Or.inl ⟨L.errorAtPrevious .readInOwnInitializer nofun h, rfl⟩
    · exact Or.inl ⟨h, rfl⟩

theorem Tight.accessTo (h : L.Tight b b') (name : String) :
    L.TightWith (b.accessTo name) (b'.accessTo name) L.Accesses := by
  have hresolve := h.resolveLocal name
  have hlasts (b : Builder) : L.Lasts (b.resolveLocal name).1 (b.accessTo name).1 := by
    unfold Builder.accessTo
    generalize b.resolveLocal name = found
    obtain ⟨b, slot⟩ := found
    cases slot with
    | some slot => exact L.closed.refl b
    | none => exact L.closed.makeConstant b _
  refine hresolve.bind (hlasts b) (hlasts b') fun hslots => ?_
  unfold Builder.accessTo
  generalize b.resolveLocal name = found at hslots ⊢
  generalize b'.resolveLocal name = found' at hslots ⊢
  obtain ⟨b₁, slot⟩ := found
  obtain ⟨b₁', slot'⟩ := found'
  obtain ⟨htight, rfl⟩ : L.tight b₁ b₁' ∧ slot = slot' := hslots
  cases slot with
  | some slot => exact Or.inl ⟨htight, rfl, rfl, L.same_operand slot⟩
  | none => exact (L.makeConstant (.string name) htight).imp_left fun h => ⟨h.1, rfl, rfl, h.2⟩

theorem Tight.declareVariable (h : L.Tight b b') :
    L.Tight b.declareVariable b'.declareVariable := by
  refine h.bind (L.closed.declareVariable b) (L.closed.declareVariable b') fun h => ?_
  have hsame := L.resembles (L.loosen h)
  unfold Builder.declareVariable declaredHere
  dsimp only
  rw [hsame.scopeDepth, hsame.lexeme, hsame.locals]
  split
  · exact Or.inl h
  · rename_i hinside
    have hpos : 0 < b.scopeDepth := by
      rw [hsame.scopeDepth]
      exact Nat.pos_of_ne_zero hinside
    split
    · exact Or.inl (L.addLocal _ ((scopeDepth_report _ _ _).symm ▸ hpos)
        (L.errorAtPrevious .alreadyDeclared nofun h))
    · exact Or.inl (L.addLocal _ hpos h)

theorem Loose.readVariable (h : L.Loose b b') :
    L.TightWith b.readVariable b'.readVariable L.operands := by
  have hdeclared := (h.expect .identifier .variableName).declareVariable
  refine h.bind (L.closed.readVariable b) (L.closed.readVariable b') fun _ => ?_
  have hlasts (c : Builder) :
      L.Lasts c (if 0 < c.scopeDepth then (c, 0) else c.nameConstant c.previous.lexeme).1 := by
    split
    · exact L.closed.refl c
    · exact L.closed.makeConstant c _
  refine hdeclared.bind (hlasts _) (hlasts _) fun h => ?_
  have hsame := L.resembles (L.loosen h)
  unfold Builder.readVariable
  dsimp only
  rw [hsame.scopeDepth, hsame.lexeme]
  split
  · exact Or.inl ⟨h, L.same_operand 0⟩
  · exact L.makeConstant _ h

theorem Tight.defineVariable (h : L.Tight b b') {name name' : UInt8}
    (hname : L.operands name name') :
    L.Tight (b.defineVariable name) (b'.defineVariable name') := by
  refine h.bind (L.closed.defineVariable b name) (L.closed.defineVariable b' name') fun h => ?_
  have hsame := L.resembles (L.loosen h)
  unfold Builder.defineVariable
  rw [hsame.scopeDepth]
  split
  · rename_i hpos
    exact Or.inl (L.markInitialized (hsame.scopeDepth.symm ▸ hpos) h)
  · exact Tight.emitWithByte (Or.inl h) _ hname

end Variables

section Expressions

variable {operand : Precedence → Builder → Builder}

theorem Tight.number (h : L.Tight b b') : L.Tight b.number b'.number := by
  refine h.bind (L.closed.number b) (L.closed.number b') fun h => ?_
  unfold Builder.number
  rw [(L.resembles (L.loosen h)).lexeme]
  split
  · exact Tight.emitConstant (Or.inl h) _
  · exact Or.inl (L.errorAtPrevious .expectExpression nofun h)

theorem Tight.string (h : L.Tight b b') : L.Tight b.string b'.string := by
  refine h.bind (L.closed.emitConstant b _) (L.closed.emitConstant b' _) fun h => ?_
  unfold Builder.string
  rw [(L.resembles (L.loosen h)).lexeme]
  exact Tight.emitConstant (Or.inl h) _

theorem joinsAt_eq {p : Precedence} (h : L.tight b b') : joinsAt p b = joinsAt p b' := by
  rw [joinsAt, joinsAt, (L.resembles (L.loosen h)).current]

variable (hoperand : ∀ p, L.Steps L.loose L.tight (operand p))
include hoperand

theorem Tight.namedVariable (h : L.Tight b b') (canAssign : Bool) :
    L.Tight (b.namedVariable (operand .assignment) canAssign)
      (b'.namedVariable (operand .assignment) canAssign) := by
  have hlasts (p : Precedence) (b : Builder) := (hoperand p).lasts b
  refine h.bind (L.closed.namedVariable hlasts canAssign b)
    (L.closed.namedVariable hlasts canAssign b')
    fun h => ?_
  have haccess := Tight.accessTo (Or.inl h) b.previous.lexeme
  have hrest (r : Builder × Access) : L.Lasts r.1
      (if canAssign && r.1.sees .assign then
        (operand .assignment r.1.advance).emitWithByte r.2.set r.2.operand
      else r.1.emitWithByte r.2.get r.2.operand) := by
    split
    · exact (L.closed.advance _).trans ((hlasts _ _).trans (L.closed.emitWithByte _ _ _))
    · exact L.closed.emitWithByte _ _ _
  unfold Builder.namedVariable
  rw [(L.resembles (L.loosen h)).lexeme] at haccess ⊢
  refine haccess.bind (hrest _) (hrest _) fun ⟨htight, hget, hset, hbyte⟩ => ?_
  dsimp only
  rw [(L.resembles (L.loosen htight)).sees, hget, hset]
  split
  · exact Tight.emitWithByte ((hoperand .assignment).apply
      (Loose.advance (Or.inl (L.loosen htight))).loose) _ hbyte
  · exact Tight.emitWithByte (Or.inl htight) _ hbyte

theorem Tight.lead (h : L.Tight b b') (canAssign : Bool) (l : Lead) :
    L.Tight (b.lead operand canAssign l) (b'.lead operand canAssign l) := by
  cases l with
  | group => exact Tight.expect ((hoperand .assignment).apply h.loose) _ _
  | unary op => exact Tight.emit ((hoperand .unary).apply h.loose) op
  | literal op => exact h.emit op
  | number => exact h.number
  | string => exact h.string
  | identifier => exact h.namedVariable hoperand canAssign

/-- The second operand of `or`, where the jump around it has been written. -/
theorem Tight.secondOperand (h : L.Tight b b') {elseJump elseJump' endJump endJump' : Nat}
    (helse : L.Offsets elseJump elseJump') (hend : L.Offsets endJump endJump') :
    L.Tight ((operand .or ((b.patchJump elseJump).emit .pop)).patchJump endJump)
      ((operand .or ((b'.patchJump elseJump').emit .pop)).patchJump endJump') :=
  Tight.patchJump ((hoperand .or).apply ((h.patchJump helse).emit .pop).loose) hend

theorem Tight.disjunction (h : L.Tight b b') :
    L.Tight (b.join operand .disjunction) (b'.join operand .disjunction) := by
  have hrest (elseJump : Nat) (r : Builder × Nat) :
      L.Lasts r.1 ((operand .or ((r.1.patchJump elseJump).emit .pop)).patchJump r.2) :=
    (L.closed.patchJump _ _).trans ((L.closed.emit _ _).trans
      (((hoperand .or).lasts _).trans (L.closed.patchJump _ _)))
  have hfirst := h.emitJump .jumpIfFalse
  unfold Builder.join
  generalize b.emitJump .jumpIfFalse = r at hfirst ⊢
  generalize b'.emitJump .jumpIfFalse = r' at hfirst ⊢
  dsimp only
  refine hfirst.bind ((L.closed.emitJump r.1 .jump).trans (hrest r.2 (r.1.emitJump .jump)))
    ((L.closed.emitJump r'.1 .jump).trans (hrest r'.2 (r'.1.emitJump .jump))) fun hfirst => ?_
  have hsecond : L.TightWith (r.1.emitJump .jump) (r'.1.emitJump .jump) L.Offsets :=
    Tight.emitJump (Or.inl hfirst.1) .jump
  generalize r.1.emitJump .jump = q at hsecond ⊢
  generalize r'.1.emitJump .jump = q' at hsecond ⊢
  exact hsecond.bind (hrest r.2 q) (hrest r'.2 q') fun hq =>
    Tight.secondOperand hoperand (Or.inl hq.1) hfirst.2 hq.2

theorem Tight.join (h : L.Tight b b') (j : Join) :
    L.Tight (b.join operand j) (b'.join operand j) := by
  have hlasts (p : Precedence) (b : Builder) := (hoperand p).lasts b
  cases j with
  | binary p right ops =>
      have hops (ops : List Opcode) {c c' : Builder} (h : L.Tight c c') :
          L.Tight (ops.foldl Builder.emit c) (ops.foldl Builder.emit c') := by
        induction ops generalizing c c' with
        | nil => exact h
        | cons op rest ih => exact ih (h.emit op)
      exact hops ops ((hoperand right).apply h.loose)
  | conjunction =>
      have hsecond (offset : Nat) (c : Builder) :
          L.Lasts c ((operand .and (c.emit .pop)).patchJump offset) :=
        (L.closed.emit _ _).trans ((hlasts _ _).trans (L.closed.patchJump _ _))
      refine (h.emitJump .jumpIfFalse).bind (hsecond _ _) (hsecond _ _) fun ⟨htight, hoffset⟩ => ?_
      exact Tight.patchJump ((hoperand .and).apply (Tight.emit (Or.inl htight) .pop).loose) hoffset
  | disjunction => exact h.disjunction hoperand

theorem Loose.joinNext (h : L.Loose b b') : L.Tight (b.joinNext operand) (b'.joinNext operand) := by
  have hlasts (p : Precedence) (b : Builder) := (hoperand p).lasts b
  have hnext (b : Builder) : L.Lasts b.advance (b.joinNext operand) := by
    unfold Builder.joinNext
    dsimp only
    split
    · exact L.closed.join hlasts _ _
    · exact L.closed.refl _
  refine h.advance.bind (hnext b) (hnext b') fun h => ?_
  unfold Builder.joinNext
  dsimp only
  rw [(L.resembles (L.loosen h)).previous]
  split
  · exact Tight.join hoperand (Or.inl h) _
  · exact Or.inl h

/-- What joins an operand that has been read, and the assignment that may not follow it. -/
theorem Tight.joined (h : L.Tight b b') (p : Precedence) :
    let rest (c : Builder) :=
      let c := repeatWhile (joinsAt p) (Builder.joinNext operand) c.unread c
      if decide (p = .assignment) && c.sees .assign then
        c.advance.errorAtPrevious .invalidAssignmentTarget
      else c
    L.Tight (rest b) (rest b') := by
  have hlasts (p : Precedence) (b : Builder) := (hoperand p).lasts b
  have hreads (p : Precedence) (b : Builder) := (hoperand p).reads b
  have hloop (c : Builder) :
      L.Lasts c (Builder.repeatWhile (joinsAt p) (Builder.joinNext operand) c.unread c) :=
    L.closed.repeatWhile (L.closed.joinNext hlasts) _ _
  have hlast (c : Builder) : L.Lasts c
      (if decide (p = .assignment) && c.sees .assign then
        c.advance.errorAtPrevious .invalidAssignmentTarget else c) := by
    split
    · exact (L.closed.advance _).trans (L.closed.errorAtPrevious _ _)
    · exact L.closed.refl c
  have hjoins : L.Steps L.tight L.tight (Builder.joinNext operand) :=
    ⟨L.closed.joinNext hlasts, closed_unread.joinNext hreads,
      fun _ => ⟨unread_joinNext hreads _, unread_joinNext hreads _⟩,
      fun h => Loose.joinNext hoperand (Or.inl (L.loosen h))⟩
  have hjoined := h.bind (hloop _) (hloop _) fun h =>
    hjoins.repeatWhile_unread L.loosen joinsAt_eq h
  refine hjoined.bind (hlast _) (hlast _) fun h => ?_
  dsimp only
  rw [(L.resembles (L.loosen h)).sees]
  split
  · exact (Loose.advance (Or.inl (L.loosen h))).errorAtPrevious .invalidAssignmentTarget nofun
  · exact Or.inl h

theorem Loose.operandWithin (h : L.Loose b b') (p : Precedence) :
    L.Tight (operandWithin operand p b) (operandWithin operand p b') := by
  have hlasts (p : Precedence) (b : Builder) := (hoperand p).lasts b
  have hread (c : Builder) : L.Lasts c.advance (Builder.operandWithin operand p c) := by
    unfold Builder.operandWithin
    dsimp only
    split
    · exact L.closed.errorAtPrevious _ _
    · rename_i l _
      have hlead := L.closed.lead hlasts (decide (p = .assignment)) c.advance l
      have hloop (c : Builder) :
          L.Lasts c (Builder.repeatWhile (joinsAt p) (Builder.joinNext operand) c.unread c) :=
        L.closed.repeatWhile (L.closed.joinNext hlasts) _ _
      split
      · exact hlead.trans ((hloop _).trans
          ((L.closed.advance _).trans (L.closed.errorAtPrevious _ _)))
      · exact hlead.trans (hloop _)
  refine h.advance.bind (hread b) (hread b') fun hread => ?_
  unfold Builder.operandWithin
  dsimp only
  rw [(L.resembles (L.loosen hread)).previous]
  split
  · exact Or.inl (L.errorAtPrevious .expectExpression nofun hread)
  · rename_i l _
    exact (Tight.lead hoperand (Or.inl hread) (decide (p = .assignment)) l).joined hoperand p

end Expressions

/-- A level on which tokens are read, where `n` levels are open already. -/
theorem Levels.nested (hL : L.Levels) {n : Nat} {body : Builder → Builder}
    (hlasts : ∀ b, L.Lasts b (body b)) (hreads : ∀ b, (body b).unread.length ≤ b.unread.length)
    (hbody : n < nestingMax → (L.atLevel (n + 1)).Steps (L.atLevel (n + 1)).loose
      (L.atLevel (n + 1)).tight body) (hn : n ≤ nestingMax) :
    (L.atLevel n).Steps (L.atLevel n).loose (L.atLevel n).tight (Builder.nested body) := by
  have hdeeper {b b' : Builder} (h : (L.atLevel n).loose b b') : (L.atLevel (n + 1)).loose
      { b with nesting := b.nesting + 1 } { b' with nesting := b'.nesting + 1 } :=
    ⟨hL.deeper h.1, congrArg (· + 1) h.2⟩
  have hroom {b b' : Builder} (h : (L.atLevel n).loose b b') (hfull : b.nesting ≠ nestingMax) :
      n < nestingMax :=
    Nat.lt_of_le_of_ne hn (h.2 ▸ hfull)
  refine ⟨L.closed.nested hlasts, closed_unread.nested hreads, fun {b b'} h => ?_,
    fun {b b'} h => ?_⟩
  · have hmoves (hfull : b.nesting ≠ nestingMax) := (hbody (hroom h hfull)).moves (hdeeper h)
    refine ⟨unread_nested fun hfull => ?_, unread_nested fun hfull => ?_⟩
    · rw [← unread_deeper b (b.nesting + 1)]
      exact (hmoves hfull).1
    · rw [← unread_deeper b' (b'.nesting + 1)]
      exact (hmoves ((L.resembles h.1).nesting ▸ hfull)).2
  · unfold Builder.nested
    rw [← (L.resembles h.1).nesting]
    split
    · exact (Loose.advance (Or.inl h)).errorAtPrevious .tooDeeplyNested nofun
    · rename_i hfull
      have hlevel (c : Builder) : L.Lasts c { c with nesting := c.nesting - 1 } :=
        L.lasts_of fun hP => hP.nesting _
      have hkept := (hbody (hroom h hfull)).keeps (hdeeper h)
      rw [← (L.resembles h.1).nesting] at hkept
      refine hkept.bind (hlevel _) (hlevel _) fun hkept => Or.inl ⟨hL.shallower hkept.1, ?_⟩
      exact (congrArg (· - 1) hkept.2).trans (Nat.add_sub_cancel n 1)

theorem Levels.operand (hL : L.Levels) (depth : Nat) {n : Nat} (hn : n ≤ nestingMax)
    (hdepth : nestingMax < depth + n) (p : Precedence) :
    (L.atLevel n).Steps (L.atLevel n).loose (L.atLevel n).tight (operand depth p) := by
  induction depth generalizing n p with
  | zero => exact absurd hdepth (by omega)
  | succ depth ih =>
      have hlasts := L.closed.operandWithin (L.closed.operand depth) p
      have hmoves := unread_operandWithin (closed_unread.operand depth) p
      have hreads := closed_unread.operandWithin (closed_unread.operand depth) p
      refine hL.nested hlasts hreads (fun hlt => ⟨hlasts, hreads, fun _ => ⟨hmoves _, hmoves _⟩,
        fun h => ?_⟩) hn
      exact Loose.operandWithin (ih hlt (by omega)) (Or.inl h) p

theorem Levels.expression (hL : L.Levels) (depth : Nat) {n : Nat} (hn : n ≤ nestingMax)
    (hdepth : nestingMax < depth + n) :
    (L.atLevel n).Steps (L.atLevel n).loose (L.atLevel n).tight (Builder.expression depth) :=
  hL.operand depth hn hdepth .assignment

end StackScript.Builder.Lockstep
