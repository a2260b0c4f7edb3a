import StackScript.Proofs.Grammar.Program
import StackScript.Proofs.Lockstep.Statement

/-!
Compilations without places. Where a token stands and on which line decides nothing: if all tokens
stood at the start of the text, they would be compiled as they are, to the same code and constants
or with the same diagnostics, only all on the first line.
-/

namespace StackScript

/-- The token as if it stood where a text starts. -/
def Token.placeless (t : Token) : Token :=
  { t with start := Token.origin.start, line := Token.origin.line }

def Diagnostic.placeless (d : Diagnostic) : Diagnostic := { d with line := Token.origin.line }

def Chunk.placeless (c : Chunk) : Chunk :=
  { c with lines := c.lines.map fun _ => Token.origin.line }

namespace Builder

def placeless (b : Builder) : Builder :=
  { b with
    unread := b.unread.map Token.placeless
    current := b.current.placeless
    previous := b.previous.placeless
    errors := b.errors.map Diagnostic.placeless
    chunk := b.chunk.placeless }

theorem placeless_report (b : Builder) (t : Token) (cause : Diagnostic.Cause) :
    b.placeless.report t.placeless cause = (b.report t cause).placeless := by
  unfold report placeless
  dsimp only
  split
  · rfl
  · rw [Array.map_push]
    rfl

theorem placeless_errorAtPrevious (b : Builder) (cause : Diagnostic.Cause) :
    b.placeless.errorAtPrevious cause = (b.errorAtPrevious cause).placeless :=
  placeless_report b b.previous cause

theorem placeless_errorAtCurrent (b : Builder) (cause : Diagnostic.Cause) :
    b.placeless.errorAtCurrent cause = (b.errorAtCurrent cause).placeless :=
  placeless_report b b.current cause

theorem placeless_load (unread : List Token) (b : Builder) :
    load (unread.map Token.placeless) b.placeless = (load unread b).placeless := by
  induction unread generalizing b with
  | nil => rfl
  | cons t rest ih =>
      have hkind : t.placeless.kind = t.kind := rfl
      rw [List.map_cons]
      unfold load
      rw [hkind]
      split
      · rw [placeless_report]
        exact ih _
      · rfl

theorem placeless_advance (b : Builder) : b.placeless.advance = b.advance.placeless :=
  placeless_load b.unread { b with previous := b.current }

theorem placeless_emitByte (b : Builder) (byte : UInt8) :
    b.placeless.emitByte byte = (b.emitByte byte).placeless := by
  unfold emitByte placeless Chunk.write Chunk.placeless
  dsimp only
  rw [Array.map_push]
  rfl

theorem placeless_makeConstant (b : Builder) (v : Value) :
    b.placeless.makeConstant v = ((b.makeConstant v).1.placeless, (b.makeConstant v).2) := by
  have hadded : b.placeless.chunk.addConstant v =
      ((b.chunk.addConstant v).1.placeless, (b.chunk.addConstant v).2) := by
    have hpool : b.placeless.chunk.constants = b.chunk.constants := rfl
    unfold Chunk.addConstant
    rw [hpool]
    split
    · rfl
    · dsimp only
      split <;> rfl
  unfold makeConstant
  rw [hadded]
  generalize b.chunk.addConstant v = added
  obtain ⟨chunk, index⟩ := added
  cases index with
  | some index => rfl
  | none => exact congrArg (·, 0) (placeless_errorAtPrevious { b with chunk } .tooManyConstants)

theorem placeless_patchJump (b : Builder) (offset : Nat) :
    b.placeless.patchJump offset = (b.patchJump offset).placeless := by
  have hsize : b.placeless.chunk.size = b.chunk.size := rfl
  unfold patchJump
  rw [hsize]
  dsimp only
  split
  · rfl
  · exact placeless_errorAtPrevious b .jumpTooLarge

theorem placeless_addLocal (b : Builder) (name : String) :
    b.placeless.addLocal name = (b.addLocal name).placeless := by
  have hlocals : b.placeless.locals = b.locals := rfl
  unfold addLocal
  rw [hlocals]
  split
  · exact placeless_errorAtPrevious b .tooManyLocals
  · rfl

theorem placeless_markInitialized (b : Builder) :
    b.placeless.markInitialized = b.markInitialized.placeless := by
  have hlocals : b.placeless.locals = b.locals := rfl
  unfold markInitialized
  rw [hlocals]
  split <;> rfl

theorem placeless_dropLocals (entries : List Local) (b : Builder) :
    dropLocals entries b.placeless = (dropLocals entries b).placeless := by
  induction entries generalizing b with
  | nil => rfl
  | cons entry rest ih =>
      have hpop : b.placeless.emit .pop = (b.emit .pop).placeless := placeless_emitByte b _
      have hdepth : b.placeless.scopeDepth = b.scopeDepth := rfl
      unfold dropLocals
      rw [hpop, hdepth, ih]
      split <;> rfl

/-- The second compilation is the first one without its places. -/
def unplaced : Lockstep where
  loose b b' := b' = b.placeless
  tight b b' := b' = b.placeless
  operands := Eq
  shift := 0
  Exit := Empty
  left := noExit
  right := noExit
  persists_left := persists_noExit
  persists_right := persists_noExit
  loosen := id
  resembles h := by
    subst h
    exact ⟨rfl, rfl, rfl, rfl, rfl, rfl, rfl, rfl⟩
  unread := Or.inl fun h => by rw [h, placeless, List.length_map]
  same_operand _ := rfl
  advance h := Or.inl (h ▸ placeless_advance _)
  errorAtCurrent cause _ h := h ▸ placeless_errorAtCurrent _ cause
  errorAtPrevious cause _ h := h ▸ placeless_errorAtPrevious _ cause
  recover h := h ▸ rfl
  emitByte h hbyte := hbyte ▸ h ▸ placeless_emitByte _ _
  makeConstant {b b'} v h := by
    subst h
    rw [placeless_makeConstant]
    exact Or.inl ⟨rfl, rfl⟩
  patchJump offset h := h ▸ placeless_patchJump _ offset
  addLocal name _ h := h ▸ placeless_addLocal _ name
  markInitialized _ h := h ▸ placeless_markInitialized _
  beginScope h := h ▸ rfl
  endScope {b b'} h := by
    subst h
    exact placeless_dropLocals b.locals { b with scopeDepth := b.scopeDepth - 1 }

theorem levels_unplaced : unplaced.Levels where
  deeper h := h ▸ rfl
  shallower h := h ▸ rfl

theorem atStart_placeless (tokens : List Token) :
    atStart (tokens.map Token.placeless) = (atStart tokens).placeless := by
  have hinitial :
      ({ unread := tokens } : Builder).placeless = { unread := tokens.map Token.placeless } := by
    simp [placeless, Chunk.placeless, Token.placeless, Token.origin]
  rw [atStart, atStart, ← hinitial, placeless_advance]

/-- The places of the tokens are nothing to a compilation. -/
theorem program_placeless (tokens : List Token) :
    program (tokens.map Token.placeless) = (program tokens).placeless := by
  have hstart := atStart_placeless tokens
  have hlength : (atStart tokens).unread.length =
      (atStart (tokens.map Token.placeless)).unread.length := by
    rw [hstart, placeless, List.length_map]
  have hlast := levels_unplaced.declarations (atStart tokens).unread _ hlength
    (Or.inl ⟨hstart, (closed_levels.advance _).1⟩)
  obtain ⟨hlast, -⟩ | ⟨e, -⟩ := hlast.advance.emit .ret
  · exact hlast
  · exact nomatch e

end Builder

end StackScript
