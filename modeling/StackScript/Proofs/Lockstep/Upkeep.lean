import StackScript.Proofs.Lockstep.Statement

/-!
A property that a whole compilation keeps up. It is a lockstep of the compilation with
itself, so only the small steps have to be looked at.
-/

namespace StackScript.Builder

/-- A property that all small steps keep, loosely between the end of a panic and the next
token or diagnostic. -/
structure Upkeep where
  loose : Builder → Prop
  tight : Builder → Prop
  loosen {b : Builder} : tight b → loose b
  advance {b : Builder} : loose b → tight b.advance
  errorAtCurrent {b : Builder} (cause : Diagnostic.Cause) : cause.Grammatical → loose b →
    tight (b.errorAtCurrent cause)
  errorAtPrevious {b : Builder} (cause : Diagnostic.Cause) : cause.Grammatical → tight b →
    tight (b.errorAtPrevious cause)
  recover {b : Builder} : tight b → loose { b with panicking := false }
  emitByte {b : Builder} (byte : UInt8) : tight b → tight (b.emitByte byte)
  makeConstant {b : Builder} (v : Value) : tight b → tight (b.makeConstant v).1
  patchJump {b : Builder} (offset : Nat) : tight b → tight (b.patchJump offset)
  addLocal {b : Builder} (name : String) : 0 < b.scopeDepth → tight b → tight (b.addLocal name)
  markInitialized {b : Builder} : 0 < b.scopeDepth → tight b → tight b.markInitialized
  beginScope {b : Builder} : tight b → tight b.beginScope
  endScope {b : Builder} : tight b → tight b.endScope
  deeper {b : Builder} : loose b → loose { b with nesting := b.nesting + 1 }
  shallower {b : Builder} : tight b → tight { b with nesting := b.nesting - 1 }

namespace Upkeep

variable (U : Upkeep)

def lockstep : Lockstep where
  loose b b' := b = b' ∧ U.loose b
  tight b b' := b = b' ∧ U.tight b
  operands := Eq
  shift := 0
  Exit := Empty
  left := noExit
  right := noExit
  persists_left := persists_noExit
  persists_right := persists_noExit
  loosen := fun ⟨h, hb⟩ => ⟨h, U.loosen hb⟩
  resembles := by
    rintro b _ ⟨rfl, -⟩
    exact Resembles.refl b
  unread := Or.inl fun h => by rw [h.1]
  same_operand _ := rfl
  advance := fun ⟨h, hb⟩ => Or.inl ⟨congrArg _ h, U.advance hb⟩
  errorAtCurrent := fun cause hcause ⟨h, hb⟩ =>
    ⟨congrArg (Builder.errorAtCurrent · cause) h, U.errorAtCurrent cause hcause hb⟩
  errorAtPrevious := fun cause hcause ⟨h, hb⟩ =>
    ⟨congrArg (Builder.errorAtPrevious · cause) h, U.errorAtPrevious cause hcause hb⟩
  recover := fun ⟨h, hb⟩ => ⟨h ▸ rfl, U.recover hb⟩
  emitByte := by
    rintro b _ byte _ ⟨rfl, hb⟩ rfl
    exact ⟨rfl, U.emitByte byte hb⟩
  makeConstant := by
    rintro b _ v ⟨rfl, hb⟩
    exact Or.inl ⟨⟨rfl, U.makeConstant v hb⟩, rfl⟩
  patchJump := fun offset ⟨h, hb⟩ => ⟨h ▸ rfl, U.patchJump offset hb⟩
  addLocal := fun name hpos ⟨h, hb⟩ =>
    ⟨congrArg (Builder.addLocal · name) h, U.addLocal name hpos hb⟩
  markInitialized := fun hpos ⟨h, hb⟩ => ⟨congrArg _ h, U.markInitialized hpos hb⟩
  beginScope := fun ⟨h, hb⟩ => ⟨congrArg _ h, U.beginScope hb⟩
  endScope := fun ⟨h, hb⟩ => ⟨congrArg _ h, U.endScope hb⟩

theorem levels : U.lockstep.Levels where
  deeper := fun ⟨h, hb⟩ => ⟨h ▸ rfl, U.deeper hb⟩
  shallower := fun ⟨h, hb⟩ => ⟨h ▸ rfl, U.shallower hb⟩

variable {U}

theorem of_loose {b b' : Builder} (h : (U.lockstep.atLevel 0).Loose b b') : U.loose b := by
  obtain h | ⟨e, -⟩ := h
  · exact h.1.2
  · exact nomatch e

theorem topDeclaration {b : Builder} (h : U.loose b) (hlevel : b.nesting = 0) :
    U.loose b.topDeclaration :=
  of_loose (U.levels.topDeclaration.keeps ⟨⟨rfl, h⟩, hlevel⟩)

theorem declarations {b : Builder} (bound : List Token) (h : U.loose b) (hlevel : b.nesting = 0) :
    U.loose (repeatWhile (fun b => !b.sees .endOfFile) Builder.topDeclaration bound b) :=
  of_loose (U.levels.declarations bound bound rfl (Or.inl ⟨⟨rfl, h⟩, hlevel⟩))

/-- A property that holds once the first token has been read holds at the end. -/
theorem program {tokens : List Token} (h : U.loose ({ unread := tokens } : Builder).advance) :
    U.tight (Builder.program tokens) := by
  have hdone := declarations ({ unread := tokens } : Builder).advance.unread h
    (closed_levels.advance _).1
  exact U.emitByte _ (U.advance hdone)

end Upkeep

end StackScript.Builder
