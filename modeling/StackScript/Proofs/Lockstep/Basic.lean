import Mathlib.Tactic.Common
import StackScript.Proofs.Builder.Errors
import StackScript.Proofs.Builder.Levels
import StackScript.Proofs.Builder.Progress

/-!
Two compilations side by side. When whatever decides how a compilation goes on is the same
on both sides, they take the same steps, so a relation that every small step keeps is kept
by every reader of expressions, statements and declarations. A relation may be given up
for good where something holds of the two sides that no step of either can undo.
-/

namespace StackScript

/-- What the grammar finds wrong, not the scanner. -/
def Diagnostic.Cause.Grammatical (cause : Diagnostic.Cause) : Prop :=
  ∀ reason, cause ≠ .lexical reason

namespace Builder

/-- A property of builders that no small step undoes. -/
structure Persists (P : Builder → Prop) : Prop where
  advance : ∀ {b : Builder}, P b → P b.advance
  report : ∀ {b : Builder} (t : Token) (cause : Diagnostic.Cause), P b → P (b.report t cause)
  recover : ∀ {b : Builder}, P b → P { b with panicking := false }
  emitByte : ∀ {b : Builder} (byte : UInt8), P b → P (b.emitByte byte)
  constants : ∀ {b : Builder} (constants : Array Value), P b →
    P { b with chunk.constants := constants }
  code : ∀ {b : Builder} (code : Array UInt8), P b → P { b with chunk.code := code }
  locals : ∀ {b : Builder} (locals : List Local), P b → P { b with locals := locals }
  scopeDepth : ∀ {b : Builder} (n : Nat), P b → P { b with scopeDepth := n }
  nesting : ∀ {b : Builder} (n : Nat), P b → P { b with nesting := n }

namespace Persists

variable {P : Builder → Prop} (hP : Persists P)
include hP

theorem dropLocals (entries : List Local) {b : Builder} (h : P b) : P (dropLocals entries b) := by
  induction entries generalizing b with
  | nil => exact hP.locals [] h
  | cons entry rest ih =>
      unfold Builder.dropLocals
      split
      · exact ih (hP.emitByte _ h)
      · exact hP.locals _ h

theorem endScope {b : Builder} (h : P b) : P b.endScope :=
  hP.dropLocals _ (hP.scopeDepth _ h)

theorem closed : Closed fun b b' => P b → P b' where
  refl _ := id
  trans h₁ h₂ := h₂ ∘ h₁
  advance _ := hP.advance
  errorAtPrevious _ := hP.report _
  errorAtCurrent _ := hP.report _
  recover _ := hP.recover
  emitByte _ := hP.emitByte
  makeConstant b v h := by
    have hadded : P { b with chunk := (b.chunk.addConstant v).1 } := by
      unfold Chunk.addConstant
      split
      · exact h
      · dsimp only
        split
        · exact h
        · exact hP.constants _ h
    unfold makeConstant
    generalize b.chunk.addConstant v = added at hadded ⊢
    obtain ⟨chunk, index⟩ := added
    cases index with
    | some index => exact hadded
    | none => exact hP.report _ _ hadded
  patchJump b offset h := by
    unfold patchJump
    dsimp only
    split
    · exact hP.code _ h
    · exact hP.report _ _ h
  addLocal b name h := by
    unfold addLocal
    split
    · exact hP.report _ _ h
    · exact hP.locals _ h
  markInitialized b h := by
    unfold markInitialized
    split
    · exact h
    · exact hP.locals _ h
  nested hbody b h := by
    unfold nested
    split
    · exact hP.report _ _ (hP.advance h)
    · exact hP.nesting _ (hbody _ (hP.nesting _ h))
  inScope hbody b h := hP.endScope (hbody _ (hP.scopeDepth _ h))

end Persists

theorem Persists.imp {P : Builder → Prop} (hP : Persists P) (A : Prop) :
    Persists fun b => A → P b where
  advance h ha := hP.advance (h ha)
  report t cause h ha := hP.report t cause (h ha)
  recover h ha := hP.recover (h ha)
  emitByte byte h ha := hP.emitByte byte (h ha)
  constants cs h ha := hP.constants cs (h ha)
  code bytes h ha := hP.code bytes (h ha)
  locals entries h ha := hP.locals entries (h ha)
  scopeDepth n h ha := hP.scopeDepth n (h ha)
  nesting n h ha := hP.nesting n (h ha)

/-- What holds of the two sides when a relation is never given up. -/
def noExit (e : Empty) : Builder → Prop :=
  e.elim

theorem persists_noExit (e : Empty) : Persists (noExit e) :=
  e.elim

/-- What decides how a compilation goes on, with the code of the first one longer by
`shift`. -/
structure Resembles (shift : Nat) (b b' : Builder) : Prop where
  current : b.current.kind = b'.current.kind
  previous : b.previous.kind = b'.previous.kind
  lexeme : b.previous.lexeme = b'.previous.lexeme
  panicking : b.panicking = b'.panicking
  locals : b.locals = b'.locals
  scopeDepth : b.scopeDepth = b'.scopeDepth
  nesting : b.nesting = b'.nesting
  size : b.chunk.size = b'.chunk.size + shift

theorem Resembles.sees {shift : Nat} {b b' : Builder} (h : b.Resembles shift b')
    (kind : TokenKind) :
    b.sees kind = b'.sees kind := by
  rw [Builder.sees, Builder.sees, h.current]

theorem Resembles.refl (b : Builder) : b.Resembles 0 b :=
  ⟨rfl, rfl, rfl, rfl, rfl, rfl, rfl, rfl⟩

/-- A relation that all small steps keep. Leaving panic loosens it, and it is tight again
behind the next token or diagnostic; only then is code written or the token read last
reported. It is given up for a pair of properties, one of each side, that persist. As long as
it is not, repetitions go on equally long on both sides, because as much is unread or because
neither text has been used up. -/
structure Lockstep where
  loose : Builder → Builder → Prop
  tight : Builder → Builder → Prop
  operands : UInt8 → UInt8 → Prop
  shift : Nat
  Exit : Type
  left : Exit → Builder → Prop
  right : Exit → Builder → Prop
  persists_left (e : Exit) : Persists (left e)
  persists_right (e : Exit) : Persists (right e)
  loosen {b b' : Builder} : tight b b' → loose b b'
  resembles {b b' : Builder} : loose b b' → b.Resembles shift b'
  unread : (∀ {b b' : Builder}, loose b b' → b.unread.length = b'.unread.length) ∨
    ∀ {b b' : Builder}, loose b b' → b.unread ≠ [] ∧ b'.unread ≠ []
  same_operand (byte : UInt8) : operands byte byte
  advance {b b' : Builder} : loose b b' →
    tight b.advance b'.advance ∨ ∃ e, left e b.advance ∧ right e b'.advance
  errorAtCurrent {b b' : Builder} (cause : Diagnostic.Cause) : cause.Grammatical → loose b b' →
    tight (b.errorAtCurrent cause) (b'.errorAtCurrent cause)
  errorAtPrevious {b b' : Builder} (cause : Diagnostic.Cause) : cause.Grammatical → tight b b' →
    tight (b.errorAtPrevious cause) (b'.errorAtPrevious cause)
  recover {b b' : Builder} : tight b b' →
    loose { b with panicking := false } { b' with panicking := false }
  emitByte {b b' : Builder} {byte byte' : UInt8} : tight b b' → operands byte byte' →
    tight (b.emitByte byte) (b'.emitByte byte')
  makeConstant {b b' : Builder} (v : Value) : tight b b' →
    (tight (b.makeConstant v).1 (b'.makeConstant v).1 ∧
      operands (b.makeConstant v).2 (b'.makeConstant v).2) ∨
    ∃ e, left e (b.makeConstant v).1 ∧ right e (b'.makeConstant v).1
  patchJump {b b' : Builder} (offset : Nat) : tight b b' →
    tight (b.patchJump (offset + shift)) (b'.patchJump offset)
  addLocal {b b' : Builder} (name : String) : 0 < b.scopeDepth → tight b b' →
    tight (b.addLocal name) (b'.addLocal name)
  markInitialized {b b' : Builder} : 0 < b.scopeDepth → tight b b' →
    tight b.markInitialized b'.markInitialized
  beginScope {b b' : Builder} : tight b b' → tight b.beginScope b'.beginScope
  endScope {b b' : Builder} : tight b b' → tight b.endScope b'.endScope

namespace Lockstep

variable (L : Lockstep)

/-- Relations that are kept one level deeper, too. -/
structure Levels : Prop where
  deeper {b b' : Builder} : L.loose b b' →
    L.loose { b with nesting := b.nesting + 1 } { b' with nesting := b'.nesting + 1 }
  shallower {b b' : Builder} : L.tight b b' →
    L.tight { b with nesting := b.nesting - 1 } { b' with nesting := b'.nesting - 1 }

/-- The same relations among builders on one level. -/
def atLevel (n : Nat) : Lockstep where
  loose b b' := L.loose b b' ∧ b.nesting = n
  tight b b' := L.tight b b' ∧ b.nesting = n
  operands := L.operands
  shift := L.shift
  Exit := L.Exit
  left := L.left
  right := L.right
  persists_left := L.persists_left
  persists_right := L.persists_right
  loosen h := ⟨L.loosen h.1, h.2⟩
  resembles h := L.resembles h.1
  unread := L.unread.imp (fun hsame _ _ h => hsame h.1) (fun hmore _ _ h => hmore h.1)
  same_operand := L.same_operand
  advance h := (L.advance h.1).imp_left fun hread => ⟨hread, (closed_levels.advance _).1.trans h.2⟩
  errorAtCurrent cause hcause h :=
    ⟨L.errorAtCurrent cause hcause h.1, (closed_levels.errorAtCurrent _ _).1.trans h.2⟩
  errorAtPrevious cause hcause h :=
    ⟨L.errorAtPrevious cause hcause h.1, (closed_levels.errorAtPrevious _ _).1.trans h.2⟩
  recover h := ⟨L.recover h.1, h.2⟩
  emitByte h hbyte := ⟨L.emitByte h.1 hbyte, h.2⟩
  makeConstant v h := (L.makeConstant v h.1).imp_left fun hmade =>
    ⟨⟨hmade.1, (closed_levels.makeConstant _ v).1.trans h.2⟩, hmade.2⟩
  patchJump offset h := ⟨L.patchJump offset h.1, (closed_levels.patchJump _ _).1.trans h.2⟩
  addLocal name hpos h := ⟨L.addLocal name hpos h.1, (closed_levels.addLocal _ name).1.trans h.2⟩
  markInitialized hpos h :=
    ⟨L.markInitialized hpos h.1, (closed_levels.markInitialized _).1.trans h.2⟩
  beginScope h := ⟨L.beginScope h.1, h.2⟩
  endScope h := ⟨L.endScope h.1, (levels_dropLocals _ _).1.trans h.2⟩

/-- The second builder keeps whatever the relation has been given up for at the first. -/
def Lasts (b b' : Builder) : Prop :=
  (∀ e, L.left e b → L.left e b') ∧ ∀ e, L.right e b → L.right e b'

variable {L} in
theorem Lasts.trans {b₁ b₂ b₃ : Builder} (h₁ : L.Lasts b₁ b₂) (h₂ : L.Lasts b₂ b₃) :
    L.Lasts b₁ b₃ :=
  ⟨fun e h => h₂.1 e (h₁.1 e h), fun e h => h₂.2 e (h₁.2 e h)⟩

theorem lasts_of {b b' : Builder} (h : ∀ {P : Builder → Prop}, Persists P → P b → P b') :
    L.Lasts b b' :=
  ⟨fun e => h (L.persists_left e), fun e => h (L.persists_right e)⟩

theorem closed : Closed L.Lasts where
  refl b := L.lasts_of fun hP => hP.closed.refl b
  trans := Lasts.trans
  advance b := L.lasts_of fun hP => hP.closed.advance b
  errorAtPrevious b cause := L.lasts_of fun hP => hP.closed.errorAtPrevious b cause
  errorAtCurrent b cause := L.lasts_of fun hP => hP.closed.errorAtCurrent b cause
  recover b := L.lasts_of fun hP => hP.closed.recover b
  emitByte b byte := L.lasts_of fun hP => hP.closed.emitByte b byte
  makeConstant b v := L.lasts_of fun hP => hP.closed.makeConstant b v
  patchJump b offset := L.lasts_of fun hP => hP.closed.patchJump b offset
  addLocal b name := L.lasts_of fun hP => hP.closed.addLocal b name
  markInitialized b := L.lasts_of fun hP => hP.closed.markInitialized b
  nested hbody b := ⟨fun e => (L.persists_left e).closed.nested (fun b => (hbody b).1 e) b,
    fun e => (L.persists_right e).closed.nested (fun b => (hbody b).2 e) b⟩
  inScope hbody b := ⟨fun e => (L.persists_left e).closed.inScope (fun b => (hbody b).1 e) b,
    fun e => (L.persists_right e).closed.inScope (fun b => (hbody b).2 e) b⟩

/-- What holds of two builders unless the relation has been given up. -/
def Unless (b b' : Builder) (P : Prop) : Prop :=
  P ∨ ∃ e, L.left e b ∧ L.right e b'

def Loose (b b' : Builder) : Prop := L.Unless b b' (L.loose b b')

def Tight (b b' : Builder) : Prop := L.Unless b b' (L.tight b b')

/-- Tight builders, each with a result. -/
def TightWith {α : Type} (r r' : Builder × α) (same : α → α → Prop) : Prop :=
  L.Unless r.1 r'.1 (L.tight r.1 r'.1 ∧ same r.2 r'.2)

variable {L}

namespace Unless

variable {b b' c c' : Builder} {P Q : Prop}

theorem bind (h : L.Unless b b' P) (hb : L.Lasts b c) (hb' : L.Lasts b' c')
    (hP : P → L.Unless c c' Q) : L.Unless c c' Q := by
  obtain h | ⟨e, hleft, hright⟩ := h
  · exact hP h
  · exact Or.inr ⟨e, hb.1 e hleft, hb'.2 e hright⟩

end Unless

/-- A reader that keeps the builders in lockstep, from either relation to either. -/
structure Steps (L : Lockstep) (R S : Builder → Builder → Prop) (f : Builder → Builder) : Prop where
  lasts : ∀ b, L.Lasts b (f b)
  reads : ∀ b, (f b).unread.length ≤ b.unread.length
  moves : ∀ {b b'}, R b b' → (f b).unread.length ≤ b.advance.unread.length ∧
    (f b').unread.length ≤ b'.advance.unread.length
  keeps : ∀ {b b'}, R b b' → L.Unless (f b) (f b') (S (f b) (f b'))

variable {R S T : Builder → Builder → Prop} {f g : Builder → Builder} {b b' : Builder}

theorem Steps.apply (hf : L.Steps R S f) (h : L.Unless b b' (R b b')) :
    L.Unless (f b) (f b') (S (f b) (f b')) :=
  h.bind (hf.lasts b) (hf.lasts b') hf.keeps

theorem Tight.loose (h : L.Tight b b') : L.Loose b b' :=
  h.imp_left L.loosen

theorem Tight.errorAtPrevious (h : L.Tight b b') (cause : Diagnostic.Cause)
    (hcause : cause.Grammatical) : L.Tight (b.errorAtPrevious cause) (b'.errorAtPrevious cause) :=
  h.bind (L.closed.errorAtPrevious b cause) (L.closed.errorAtPrevious b' cause) fun h =>
    Or.inl (L.errorAtPrevious cause hcause h)

theorem Loose.advance (h : L.Loose b b') : L.Tight b.advance b'.advance :=
  h.bind (L.closed.advance b) (L.closed.advance b') L.advance

theorem Loose.expect (h : L.Loose b b') (kind : TokenKind) (what : Expectation) :
    L.Tight (b.expect kind what) (b'.expect kind what) := by
  refine h.bind (L.closed.expect b kind what) (L.closed.expect b' kind what) fun h => ?_
  unfold Builder.expect
  rw [(L.resembles h).sees kind]
  split
  · exact L.advance h
  · exact Or.inl (L.errorAtCurrent (.expect what) nofun h)

theorem Tight.expect (h : L.Tight b b') (kind : TokenKind) (what : Expectation) :
    L.Tight (b.expect kind what) (b'.expect kind what) :=
  h.loose.expect kind what

theorem Tight.emitByte (h : L.Tight b b') {byte byte' : UInt8} (hbyte : L.operands byte byte') :
    L.Tight (b.emitByte byte) (b'.emitByte byte') :=
  h.bind (L.closed.emitByte b byte) (L.closed.emitByte b' byte') fun h =>
    Or.inl (L.emitByte h hbyte)

theorem Tight.emit (h : L.Tight b b') (op : Opcode) : L.Tight (b.emit op) (b'.emit op) :=
  h.emitByte (L.same_operand _)

theorem Tight.emitWithByte (h : L.Tight b b') (op : Opcode) {byte byte' : UInt8}
    (hbyte : L.operands byte byte') : L.Tight (b.emitWithByte op byte) (b'.emitWithByte op byte') :=
  (h.emit op).emitByte hbyte

theorem Tight.emitWord (h : L.Tight b b') (word : Nat) :
    L.Tight (b.emitWord word) (b'.emitWord word) :=
  (h.emitByte (L.same_operand _)).emitByte (L.same_operand _)

theorem Tight.makeConstant (h : L.Tight b b') (v : Value) :
    L.TightWith (b.makeConstant v) (b'.makeConstant v) L.operands :=
  h.bind (L.closed.makeConstant b v) (L.closed.makeConstant b' v) (L.makeConstant v)

theorem Tight.emitConstant (h : L.Tight b b') (v : Value) :
    L.Tight (b.emitConstant v) (b'.emitConstant v) :=
  (h.makeConstant v).bind (L.closed.emitWithByte _ _ _) (L.closed.emitWithByte _ _ _) fun h =>
    Tight.emitWithByte (Or.inl h.1) .constant h.2

/-- Offsets in the code of the first side are further by the shift. -/
def Offsets (L : Lockstep) (offset offset' : Nat) : Prop :=
  offset = offset' + L.shift

theorem Tight.emitJump (h : L.Tight b b') (op : Opcode) :
    L.TightWith (b.emitJump op) (b'.emitJump op) L.Offsets := by
  have hwrote : L.Tight (b.emitJump op).1 (b'.emitJump op).1 := (h.emit op).emitWord distanceMax
  refine hwrote.imp_left fun h => ⟨h, ?_⟩
  have hsize := (L.resembles (L.loosen h)).size
  have hlong : 2 ≤ (b'.emitJump op).1.chunk.size := by
    simp only [Builder.emitJump, Builder.emit, Builder.emitWord, Builder.emitByte, Chunk.size_write]
    omega
  show (b.emitJump op).1.chunk.size - 2 = (b'.emitJump op).1.chunk.size - 2 + L.shift
  omega

theorem Tight.patchJump (h : L.Tight b b') {offset offset' : Nat}
    (hoffset : L.Offsets offset offset') :
    L.Tight (b.patchJump offset) (b'.patchJump offset') := by
  rw [hoffset]
  exact h.bind (L.closed.patchJump b _) (L.closed.patchJump b' _) fun h =>
    Or.inl (L.patchJump offset' h)

theorem Tight.emitLoop (h : L.Tight b b') {start start' : Nat} (hstart : L.Offsets start start') :
    L.Tight (b.emitLoop start) (b'.emitLoop start') := by
  refine h.bind (L.closed.emitLoop b start) (L.closed.emitLoop b' start') fun h => ?_
  have hloop : L.tight (b.emit .loop) (b'.emit .loop) := L.emitByte h (L.same_operand _)
  have hdistance :
      (b.emit .loop).chunk.size - start + 2 = (b'.emit .loop).chunk.size - start' + 2 := by
    rw [(L.resembles (L.loosen hloop)).size, hstart, Nat.add_sub_add_right]
  unfold Builder.emitLoop
  dsimp only
  rw [hdistance]
  split
  · exact Tight.emitWord (Or.inl hloop) _
  · exact Tight.emitWord (Or.inl (L.errorAtPrevious .loopTooLarge nofun hloop)) 0

theorem Tight.size (h : L.tight b b') : L.Offsets b.chunk.size b'.chunk.size :=
  (L.resembles (L.loosen h)).size

/-- A repetition with the same test and the same bound on both sides. -/
theorem Steps.repeatWhile {more : Builder → Bool} (hf : L.Steps R R f)
    (hmore : ∀ {b b'}, R b b' → more b = more b') (bound bound' : List Token)
    (hbound : bound.length = bound'.length) (h : L.Unless b b' (R b b')) :
    L.Unless (Builder.repeatWhile more f bound b) (Builder.repeatWhile more f bound' b')
      (R (Builder.repeatWhile more f bound b) (Builder.repeatWhile more f bound' b')) := by
  induction bound generalizing bound' b b' with
  | nil =>
      obtain rfl := List.eq_nil_of_length_eq_zero hbound.symm
      exact h
  | cons t rest ih =>
      obtain ⟨t', rest', rfl⟩ := List.exists_cons_of_length_eq_add_one hbound.symm
      refine h.bind (L.closed.repeatWhile hf.lasts _ b) (L.closed.repeatWhile hf.lasts _ b')
        fun h => ?_
      unfold Builder.repeatWhile
      rw [hmore h]
      split
      · exact ih rest' (Nat.succ.inj hbound) (hf.keeps h)
      · exact Or.inl h

/-- A repetition with the same test on both sides, neither of which runs out of tokens before
the relation is given up. -/
theorem Steps.repeatWhile_of_unread_ne_nil {more : Builder → Bool} (hf : L.Steps R R f)
    (hmore : ∀ {b b'}, R b b' → more b = more b')
    (hunread : ∀ {b b'}, R b b' → b.unread ≠ [] ∧ b'.unread ≠ []) (bound bound' : List Token)
    (hbound : b.unread.length ≤ bound.length) (hbound' : b'.unread.length ≤ bound'.length)
    (h : L.Unless b b' (R b b')) :
    L.Unless (Builder.repeatWhile more f bound b) (Builder.repeatWhile more f bound' b')
      (R (Builder.repeatWhile more f bound b) (Builder.repeatWhile more f bound' b')) := by
  induction bound generalizing bound' b b' with
  | nil =>
      refine h.bind (L.closed.refl b) (L.closed.repeatWhile hf.lasts _ b') fun h => ?_
      exact absurd (List.length_eq_zero_iff.mp (Nat.le_zero.mp hbound)) (hunread h).1
  | cons t rest ih =>
      refine h.bind (L.closed.repeatWhile hf.lasts _ b) (L.closed.repeatWhile hf.lasts _ b')
        fun h => ?_
      cases bound' with
      | nil => exact absurd (List.length_eq_zero_iff.mp (Nat.le_zero.mp hbound')) (hunread h).2
      | cons t' rest' =>
          have hleft := (hf.moves h).1.trans (unread_advance b)
          have hright := (hf.moves h).2.trans (unread_advance b')
          simp only [List.length_cons] at hbound hbound'
          unfold Builder.repeatWhile
          rw [hmore h]
          split
          · exact ih rest' (by omega) (by omega) (hf.keeps h)
          · exact Or.inl h

/-- A repetition that is bounded by the unread tokens. -/
theorem Steps.repeatWhile_unread {more : Builder → Bool} (hf : L.Steps R R f)
    (hloose : ∀ {b b'}, R b b' → L.loose b b') (hmore : ∀ {b b'}, R b b' → more b = more b')
    (h : R b b') :
    L.Unless (Builder.repeatWhile more f b.unread b) (Builder.repeatWhile more f b'.unread b')
      (R (Builder.repeatWhile more f b.unread b) (Builder.repeatWhile more f b'.unread b')) := by
  obtain hsame | hsome := L.unread
  · exact hf.repeatWhile hmore _ _ (hsame (hloose h)) (Or.inl h)
  · exact hf.repeatWhile_of_unread_ne_nil hmore (fun h => hsome (hloose h)) _ _ (Nat.le_refl _)
      (Nat.le_refl _) (Or.inl h)

end Lockstep

end Builder

end StackScript
