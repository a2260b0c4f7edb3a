import StackScript.Proofs.Builder.Reading
import StackScript.Proofs.Builder.Writing
import StackScript.Proofs.Pool

/-!
Compiling without a mistake. Some steps of a compilation can only succeed; the others
succeed exactly under a condition on the program, and leave a diagnostic otherwise. Such
a step settles its condition, and a chain of steps settles the conditions of all of them.
-/

namespace StackScript.Builder

open Tree

/-- The constants so far. -/
def pool (b : Builder) : List Value := b.chunk.constants.toList

/-- Nothing has gone wrong, no fault lies ahead, and the pool is within its limit. -/
structure Ready (b : Builder) : Prop where
  clean : b.Clean
  ahead : ∀ t ∈ b.upcoming, t.Sound ∧ t.WellSpelled
  room : b.pool.length ≤ Chunk.constantsMax

/-- From `b` to `b'` some tokens have been taken in, constants have been mentioned, and
instructions have been written; `locals` are in scope afterwards. -/
structure Compiles (b : Builder) (ts : List Token) (constants : List Value) (items : List Item)
    (locals : List Local) (b' : Builder) : Prop where
  took : b.Took ts b'
  pool : b'.pool = grow b.pool constants
  room : b'.pool.length ≤ Chunk.constantsMax
  wrote : b.chunk.Wrote items b'.chunk
  locals : b'.locals = locals
  depth : b'.scopeDepth = b.scopeDepth

/-- What has been asked for has been compiled if it fits, and is reported otherwise. -/
def Settles (b : Builder) (fits : Prop) (ts : List Token) (constants : List Value)
    (items : List Item) (locals : List Local) (b' : Builder) : Prop :=
  (fits ∧ b.Compiles ts constants items locals b') ∨ (¬ fits ∧ b'.Soiled)

section

variable {b b' b₁ b₂ b₃ : Builder} {ts us rest : List Token} {constants more : List Value}
  {items others : List Item} {locals locals' : List Local} {fits fits' : Prop}

theorem Compiles.ready (h : b.Compiles ts constants items locals b') (hb : b.Ready) : b'.Ready := by
  refine ⟨h.took.clean, fun t ht => hb.ahead t ?_, h.room⟩
  rw [h.took.upcoming]
  exact List.mem_append_right ts ht

theorem Compiles.upcoming (h : b.Compiles ts constants items locals b')
    (hb : b.upcoming = ts ++ rest) : b'.upcoming = rest :=
  (List.append_cancel_left (hb.symm.trans h.took.upcoming)).symm

theorem Compiles.trans (h₁ : b₁.Compiles ts constants items locals b₂)
    (h₂ : b₂.Compiles us more others locals' b₃) :
    b₁.Compiles (ts ++ us) (constants ++ more) (items ++ others) locals' b₃ where
  took := h₁.took.trans h₂.took
  pool := by rw [h₂.pool, h₁.pool, grow_append]
  room := h₂.room
  wrote := h₁.wrote.trans h₂.wrote
  locals := h₂.locals
  depth := h₂.depth.trans h₁.depth

theorem Settles.of_compiles (h : b.Compiles ts constants items locals b') :
    b.Settles True ts constants items locals b' :=
  Or.inl ⟨trivial, h⟩

/-- A step behind one that could only succeed. -/
theorem Compiles.settles (h₁ : b₁.Compiles ts constants items locals b₂)
    (h₂ : b₂.Settles fits us more others locals' b₃) :
    b₁.Settles fits (ts ++ us) (constants ++ more) (items ++ others) locals' b₃ :=
  Or.imp_left (And.imp_right h₁.trans) h₂

theorem Settles.compiles (h : b.Settles fits ts constants items locals b') (hfits : fits) :
    b.Compiles ts constants items locals b' :=
  h.elim And.right fun hmisfit => absurd hfits hmisfit.1

theorem Settles.iff (h : b.Settles fits ts constants items locals b') (hiff : fits' ↔ fits) :
    b.Settles fits' ts constants items locals b' := by
  rwa [Settles, hiff]

/-- The same in other words. -/
theorem Settles.congr (h : b.Settles fits ts constants items locals b') (hfits : fits' ↔ fits)
    (hts : us = ts) (hconstants : more = constants) (hitems : others = items) :
    b.Settles fits' us more others locals b' := by
  rw [hts, hconstants, hitems]
  exact h.iff hfits

/-- A further step, which is only taken as intended when the first one was. -/
theorem Settles.bind (h : b.Settles fits ts constants items locals b₁)
    (hkeeps : b₁.Soiled → b₂.Soiled)
    (hnext : b.Compiles ts constants items locals b₁ → b.Settles fits' us more others locals' b₂) :
    b.Settles (fits ∧ fits') us more others locals' b₂ := by
  rcases h with ⟨hfits, hcompiles⟩ | ⟨hmisfit, hsoiled⟩
  · rcases hnext hcompiles with ⟨hfits', hcompiles'⟩ | ⟨hmisfit, hsoiled⟩
    · exact Or.inl ⟨⟨hfits, hfits'⟩, hcompiles'⟩
    · exact Or.inr ⟨fun h => hmisfit h.2, hsoiled⟩
  · exact Or.inr ⟨fun h => hmisfit h.1, hkeeps hsoiled⟩

/-- A further step that can only succeed. -/
theorem Settles.andThen (h : b.Settles fits ts constants items locals b₁)
    (hkeeps : b₁.Soiled → b₂.Soiled)
    (hnext : b.Compiles ts constants items locals b₁ → b.Compiles us more others locals' b₂) :
    b.Settles fits us more others locals' b₂ :=
  (h.bind hkeeps fun hcompiles => Settles.of_compiles (hnext hcompiles)).iff
    (and_true fits).symm.to_iff

/-- Two steps one after the other. -/
theorem Settles.trans (h₁ : b₁.Settles fits ts constants items locals b₂)
    (hkeeps : b₂.Soiled → b₃.Soiled)
    (h₂ : b₁.Compiles ts constants items locals b₂ → b₂.Settles fits' us more others locals' b₃) :
    b₁.Settles (fits ∧ fits') (ts ++ us) (constants ++ more) (items ++ others) locals' b₃ := by
  refine h₁.bind hkeeps fun hcompiles => ?_
  exact (h₂ hcompiles).imp_left (And.imp_right hcompiles.trans)

end

section Steps

variable {b : Builder} (hb : b.Ready)
include hb

theorem Ready.compiles_nothing : b.Compiles [] [] [] b.locals b :=
  ⟨Took.nil hb.clean, rfl, hb.room, Chunk.Wrote.nil b.chunk, rfl, rfl⟩

theorem Ready.compiles_advance {t : Token} {rest : List Token} (hahead : b.upcoming = t :: rest)
    (hmore : rest ≠ []) : b.Compiles [t] [] [] b.locals b.advance := by
  obtain ⟨rfl, hunread⟩ : b.current = t ∧ b.unread = rest := by
    simpa [Builder.upcoming] using hahead
  cases rest with
  | nil => exact absurd rfl hmore
  | cons u rest =>
      have hsound : u.Sound := (hb.ahead u (by simp [hahead])).1
      rw [advance_of_sound hunread hsound]
      have hclean : (b.moved u rest).Clean := ⟨hb.clean.errors, hb.clean.calm⟩
      exact ⟨⟨hclean, hahead, rfl, rfl⟩, rfl, hb.room, Chunk.Wrote.nil b.chunk, rfl, rfl⟩

theorem Ready.compiles_expect {t : Token} {rest : List Token} (hahead : b.upcoming = t :: rest)
    (hmore : rest ≠ []) {kind : TokenKind} (hkind : t.kind = kind) (what : Expectation) :
    b.Compiles [t] [] [] b.locals (b.expect kind what) := by
  have hcurrent : b.current = t := List.head_eq_of_cons_eq hahead
  rw [expect_of_sees (by simp [sees, hcurrent, hkind])]
  exact hb.compiles_advance hahead hmore

theorem Ready.compiles_emit (op : Opcode) : b.Compiles [] [] [.plain op] b.locals (b.emit op) :=
  ⟨⟨⟨hb.clean.errors, hb.clean.calm⟩, rfl, rfl, rfl⟩, rfl, hb.room, b.wrote_emit op, rfl, rfl⟩

theorem Ready.compiles_foldl_emit (ops : List Opcode) :
    b.Compiles [] [] (ops.map .plain) b.locals (ops.foldl emit b) := by
  induction ops generalizing b with
  | nil => exact hb.compiles_nothing
  | cons op rest ih =>
      have hemit := hb.compiles_emit op
      exact hemit.trans (ih (hemit.ready hb))

theorem Ready.compiles_emitWithByte (op : Opcode) (byte : UInt8) :
    b.Compiles [] [] [.operand op byte] b.locals (b.emitWithByte op byte) :=
  ⟨⟨⟨hb.clean.errors, hb.clean.calm⟩, rfl, rfl, rfl⟩, rfl, hb.room, b.wrote_emitWithByte op byte,
    rfl, rfl⟩

theorem Ready.compiles_emitJump (op : Opcode) :
    b.Compiles [] [] [.jump op distanceMax] b.locals (b.emitJump op).1 :=
  ⟨⟨⟨hb.clean.errors, hb.clean.calm⟩, rfl, rfl, rfl⟩, rfl, hb.room, (b.wrote_emitJump op).1, rfl,
    rfl⟩

/-- A constant that finds room gets the place that it has in the final pool. -/
theorem Ready.makeConstant_of_room {v : Value} {final : List Value}
    (hroom : (grow b.pool [v]).length ≤ Chunk.constantsMax) (hfinal : grow b.pool [v] <+: final) :
    b.Compiles [] [v] [] b.locals (b.makeConstant v).1 ∧
      (b.makeConstant v).2 = indexIn final v := by
  have hadd := b.chunk.addConstant_eq v hb.room
  rw [if_pos (show (addToPool b.chunk.constants.toList v).length ≤ _ from hroom)] at hadd
  unfold Builder.makeConstant
  rw [hadd]
  refine ⟨⟨⟨⟨hb.clean.errors, hb.clean.calm⟩, rfl, rfl, rfl⟩, ?_, ?_, ?_, rfl, rfl⟩, ?_⟩
  · simp [Builder.pool]
  · simpa [Builder.pool] using hroom
  · exact b.chunk.wrote_constants _
  · exact (indexIn_of_later (mem_addToPool b.pool v) hfinal).symm

theorem Ready.makeConstant_of_full {v : Value}
    (hfull : ¬ (grow b.pool [v]).length ≤ Chunk.constantsMax) : (b.makeConstant v).1.Soiled := by
  have hadd := b.chunk.addConstant_eq v hb.room
  rw [if_neg (show ¬ (addToPool b.chunk.constants.toList v).length ≤ _ from hfull)] at hadd
  unfold Builder.makeConstant
  rw [hadd]
  exact hb.clean.soiled_errorAtPrevious _

theorem Ready.settles_emitConstant {v : Value} {final : List Value}
    (hfinal : grow b.pool [v] <+: final) :
    b.Settles ((grow b.pool [v]).length ≤ Chunk.constantsMax) [] [v]
      [.operand .constant (indexIn final v)] b.locals (b.emitConstant v) := by
  by_cases hroom : (grow b.pool [v]).length ≤ Chunk.constantsMax
  · obtain ⟨hcompiles, hindex⟩ := hb.makeConstant_of_room hroom hfinal
    have hemit := (hcompiles.ready hb).compiles_emitWithByte .constant (b.makeConstant v).2
    have hboth := hcompiles.trans hemit
    rw [hindex, hcompiles.locals] at hboth
    exact Or.inl ⟨hroom, hindex ▸ hboth⟩
  · exact Or.inr ⟨hroom, closed_soiled.emitWithByte _ _ _ (hb.makeConstant_of_full hroom)⟩

end Steps

/-- A jump that has been written with a placeholder is led to the end of the code. -/
theorem Compiles.settles_patchJump {b b' : Builder} {ts : List Token} {constants : List Value}
    (before behind : List Item) {locals : List Local} {op : Opcode} {offset : Nat}
    (h : b.Compiles ts constants (before ++ .jump op distanceMax :: behind) locals b')
    (hoffset : offset = b.chunk.size + codeSize before + 1) :
    b.Settles (codeSize behind ≤ distanceMax) ts constants
      (before ++ .jump op (codeSize behind) :: behind) locals (b'.patchJump offset) := by
  have hsize := h.wrote.size
  have hdistance : b'.chunk.size - offset - 2 = codeSize behind := by
    simp only [codeSize_append, codeSize_cons, Item.size] at hsize
    omega
  unfold patchJump
  rw [hdistance]
  by_cases hfits : codeSize behind ≤ distanceMax
  · dsimp only
    rw [if_pos hfits]
    refine Or.inl ⟨hfits, ?_⟩
    have hclean := h.took.clean
    exact ⟨⟨⟨hclean.errors, hclean.calm⟩, h.took.upcoming, h.took.previous, h.took.nesting⟩, h.pool,
      h.room, h.wrote.patch (codeSize behind) offset hoffset, h.locals, h.depth⟩
  · dsimp only
    rw [if_neg hfits]
    exact Or.inr ⟨hfits, h.took.clean.soiled_errorAtPrevious _⟩

/-- A jump back to an offset within the code written so far. -/
theorem Compiles.settles_emitLoop {b b' : Builder} {ts : List Token} {constants : List Value}
    {items : List Item} {locals : List Local} (h : b.Compiles ts constants items locals b')
    {start distance : Nat} (hstart : start + distance = b.chunk.size + codeSize items + 3)
    (hwithin : 3 ≤ distance) :
    b.Settles (distance ≤ distanceMax) ts constants (items ++ [.jump .loop distance]) locals
      (b'.emitLoop start) := by
  have hsize := h.wrote.size
  have hemitted := (b'.wrote_emit .loop).size
  have hdistance : (b'.emit .loop).chunk.size - start + 2 = distance := by
    simp only [codeSize_cons, codeSize_nil, Item.size] at hemitted
    omega
  unfold emitLoop
  dsimp only
  rw [hdistance]
  by_cases hfits : distance ≤ distanceMax
  · rw [if_pos hfits]
    refine Or.inl ⟨hfits, ?_⟩
    have hclean := h.took.clean
    have hword : b'.Compiles [] [] [.jump .loop distance] b'.locals
        ((b'.emit .loop).emitWord distance) :=
      ⟨⟨⟨hclean.errors, hclean.calm⟩, rfl, rfl, rfl⟩, rfl, h.room,
        b'.wrote_emit_emitWord .loop distance, rfl, rfl⟩
    have hboth := h.trans hword
    rw [h.locals] at hboth
    simpa using hboth
  · rw [if_neg hfits]
    refine Or.inr ⟨hfits, closed_soiled.emitWord _ _ ?_⟩
    have hemit : (b'.emit .loop).Clean := ⟨h.took.clean.errors, h.took.clean.calm⟩
    exact hemit.soiled_errorAtPrevious _

namespace Settles

variable {b b' : Builder} {fits : Prop} {ts : List Token} {constants : List Value}
  {items : List Item} {locals : List Local}

/-- A token that has to be there behind what has been settled. -/
theorem expect (h : b.Settles fits ts constants items locals b') (hb : b.Ready) {t : Token}
    {rest : List Token} (hahead : b.upcoming = ts ++ t :: rest) (hmore : rest ≠ [])
    {kind : TokenKind} (hkind : t.kind = kind) (what : Expectation) :
    b.Settles fits (ts ++ [t]) constants items locals (b'.expect kind what) := by
  refine h.andThen (closed_soiled.expect _ _ _) fun hcompiles => ?_
  have hexpect := (hcompiles.ready hb).compiles_expect (hcompiles.upcoming hahead) hmore hkind what
  rw [hcompiles.locals] at hexpect
  have hboth := hcompiles.trans hexpect
  rwa [List.append_nil, List.append_nil] at hboth

theorem emit (h : b.Settles fits ts constants items locals b') (hb : b.Ready) (op : Opcode) :
    b.Settles fits ts constants (items ++ [.plain op]) locals (b'.emit op) := by
  refine h.andThen (closed_soiled.emit _ _) fun hcompiles => ?_
  have hemit := (hcompiles.ready hb).compiles_emit op
  rw [hcompiles.locals] at hemit
  have hboth := hcompiles.trans hemit
  rwa [List.append_nil, List.append_nil] at hboth

/-- A jump with its placeholder, and where the placeholder stands. -/
theorem emitJump (h : b.Settles fits ts constants items locals b') (hb : b.Ready) (op : Opcode) :
    b.Settles fits ts constants (items ++ [.jump op distanceMax]) locals (b'.emitJump op).1 ∧
      (fits → (b'.emitJump op).2 = b.chunk.size + codeSize items + 1) := by
  refine ⟨h.andThen (closed_soiled.emitJump _ _) fun hcompiles => ?_, fun hfits => ?_⟩
  · have hjump := (hcompiles.ready hb).compiles_emitJump op
    rw [hcompiles.locals] at hjump
    have hboth := hcompiles.trans hjump
    rwa [List.append_nil, List.append_nil] at hboth
  · rw [(b'.wrote_emitJump op).2, (h.compiles hfits).wrote.size]

/-- A jump that has been written with a placeholder reaches its target. -/
theorem patchJump (before behind : List Item) {op : Opcode} {offset : Nat}
    (h : b.Settles fits ts constants (before ++ .jump op distanceMax :: behind) locals b')
    (hoffset : fits → offset = b.chunk.size + codeSize before + 1) :
    b.Settles (fits ∧ codeSize behind ≤ distanceMax) ts constants
      (before ++ .jump op (codeSize behind) :: behind) locals (b'.patchJump offset) := by
  by_cases hfits : fits
  · refine h.bind (closed_soiled.patchJump _ _) fun hcompiles => ?_
    exact Compiles.settles_patchJump before behind hcompiles (hoffset hfits)
  · have hsoiled := (h.resolve_left fun hgood => hfits hgood.1).2
    exact Or.inr ⟨fun hboth => hfits hboth.1, closed_soiled.patchJump _ _ hsoiled⟩

/-- A jump back into the code written so far. -/
theorem emitLoop (h : b.Settles fits ts constants items locals b') (start distance : Nat)
    (hstart : fits → start + distance = b.chunk.size + codeSize items + 3)
    (hwithin : 3 ≤ distance) :
    b.Settles (fits ∧ distance ≤ distanceMax) ts constants (items ++ [.jump .loop distance]) locals
      (b'.emitLoop start) := by
  by_cases hfits : fits
  · refine h.bind (closed_soiled.emitLoop _ _) fun hcompiles => ?_
    exact hcompiles.settles_emitLoop (hstart hfits) hwithin
  · have hsoiled := (h.resolve_left fun hgood => hfits hgood.1).2
    exact Or.inr ⟨fun hboth => hfits hboth.1, closed_soiled.emitLoop _ _ hsoiled⟩

end Settles

end StackScript.Builder
