import Mathlib.Tactic.Common
import StackScript.Proofs.Builder.Closed
import StackScript.Tree.Limits

/-!
The code that a builder writes, as a list of symbolic instructions. A forward jump first
stands there with a placeholder; patching it replaces the distance and leaves everything
else in place, so that code between the jump and its target can be described on its own.
-/

namespace StackScript

open Tree

/-- The line of every byte, given the line of every instruction. -/
def Tree.spreadLines (items : List Item) (lines : List Nat) : List Nat :=
  (List.zipWith List.replicate (items.map Item.size) lines).flatten

@[simp] theorem Tree.codeSize_nil : codeSize [] = 0 := rfl

@[simp] theorem Tree.codeSize_cons (item : Item) (rest : List Item) :
    codeSize (item :: rest) = item.size + codeSize rest := by
  simp [codeSize]

@[simp] theorem Tree.bytesOf_nil : bytesOf [] = [] := rfl

@[simp] theorem Tree.bytesOf_cons (item : Item) (rest : List Item) :
    bytesOf (item :: rest) = item.bytes ++ bytesOf rest := by
  simp [bytesOf]

@[simp] theorem Tree.bytesOf_append (first second : List Item) :
    bytesOf (first ++ second) = bytesOf first ++ bytesOf second := by
  simp [bytesOf]

theorem Tree.spreadLines_append {first second : List Item} {lines₁ lines₂ : List Nat}
    (h : first.length = lines₁.length) : spreadLines (first ++ second) (lines₁ ++ lines₂) =
      spreadLines first lines₁ ++ spreadLines second lines₂ := by
  have hsizes : (first.map Item.size).length = lines₁.length := by rwa [List.length_map]
  rw [spreadLines, spreadLines, spreadLines, List.map_append, List.zipWith_append hsizes,
    List.flatten_append]

theorem Tree.length_spreadLines {items : List Item} {lines : List Nat}
    (h : items.length = lines.length) : (spreadLines items lines).length = codeSize items := by
  induction items generalizing lines with
  | nil => rfl
  | cons item rest ih =>
      obtain ⟨line, lines, rfl⟩ := List.exists_cons_of_length_eq_add_one h.symm
      have hrest := ih (Nat.succ.inj h)
      unfold spreadLines at hrest ⊢
      simp only [List.map_cons, List.zipWith_cons_cons, List.flatten_cons, List.length_append,
        List.length_replicate, codeSize_cons, hrest]

namespace Chunk

/-- Between two chunks some instructions have been written, each for one line. The pool
may have grown meanwhile. -/
structure Wrote (c : Chunk) (items : List Item) (c' : Chunk) : Prop where
  code : c'.code.toList = c.code.toList ++ bytesOf items
  lines : ∃ lines : List Nat, lines.length = items.length ∧
    c'.lines.toList = c.lines.toList ++ spreadLines items lines

namespace Wrote

theorem nil (c : Chunk) : c.Wrote [] c :=
  ⟨by simp, [], rfl, by simp [spreadLines]⟩

theorem trans {c₁ c₂ c₃ : Chunk} {first second : List Item} (h₁ : c₁.Wrote first c₂)
    (h₂ : c₂.Wrote second c₃) : c₁.Wrote (first ++ second) c₃ := by
  obtain ⟨lines₁, hlength₁, hlines₁⟩ := h₁.lines
  obtain ⟨lines₂, hlength₂, hlines₂⟩ := h₂.lines
  refine ⟨by rw [h₂.code, h₁.code]; simp, lines₁ ++ lines₂, by simp [hlength₁, hlength₂], ?_⟩
  rw [hlines₂, hlines₁, spreadLines_append hlength₁.symm, List.append_assoc]

theorem size {c c' : Chunk} {items : List Item} (h : c.Wrote items c') :
    c'.size = c.size + codeSize items := by
  have hlength := congrArg List.length h.code
  simpa [Chunk.size] using hlength

/-- All bytes of an instruction have the line it was written for. -/
theorem exists_line {c : Chunk} {before behind : List Item} {item : Item}
    (h : ({} : Chunk).Wrote (before ++ item :: behind) c) :
    ∃ line, ∀ i < item.size, c.lines[codeSize before + i]? = some line := by
  obtain ⟨lines, hlength, hlines⟩ := h.lines
  rw [List.length_append, List.length_cons] at hlength
  obtain ⟨front, rest, rfl, hfront⟩ : ∃ front rest, lines = front ++ rest ∧
      before.length = front.length :=
    ⟨lines.take before.length, lines.drop before.length, (List.take_append_drop ..).symm,
      by rw [List.length_take, Nat.min_eq_left (by omega)]⟩
  obtain ⟨line, back, rfl⟩ : ∃ line back, rest = line :: back := by
    apply List.exists_cons_of_ne_nil
    rintro rfl
    simp only [List.append_nil] at hlength
    omega
  refine ⟨line, ?_⟩
  intro i hi
  have hwhole : c.lines.toList = spreadLines before front ++
      (List.replicate item.size line ++ spreadLines behind back) := by
    rw [hlines, spreadLines_append hfront]
    rfl
  rw [← Array.getElem?_toList, hwhole, ← length_spreadLines hfront,
    List.getElem?_append_right (Nat.le_add_right _ _), Nat.add_sub_cancel_left,
    List.getElem?_append_left (by rwa [List.length_replicate]), List.getElem?_replicate, if_pos hi]

/-- Only the bytes and their lines count. -/
theorem of_eq {c c₁ c₂ : Chunk} {items : List Item} (h : c.Wrote items c₁)
    (hcode : c₂.code = c₁.code) (hlines : c₂.lines = c₁.lines) : c.Wrote items c₂ :=
  ⟨by rw [hcode]; exact h.code, by rw [hlines]; exact h.lines⟩

end Wrote

theorem wrote_constants (c : Chunk) (constants : Array Value) :
    c.Wrote [] { c with constants } :=
  (Wrote.nil c).of_eq rfl rfl

/-- The bytes of one instruction, written one by one for the same line. -/
theorem wrote_item (c : Chunk) (item : Item) (line : Nat) {c' : Chunk}
    (h : item.bytes.foldl (fun c byte => c.write byte line) c = c') : c.Wrote [item] c' := by
  have hwrite (bytes : List UInt8) (c : Chunk) :
      (bytes.foldl (fun c byte => c.write byte line) c).code.toList = c.code.toList ++ bytes ∧
      (bytes.foldl (fun c byte => c.write byte line) c).lines.toList =
        c.lines.toList ++ List.replicate bytes.length line := by
    induction bytes generalizing c with
    | nil => simp
    | cons byte rest ih =>
        obtain ⟨hcode, hlines⟩ := ih (c.write byte line)
        simp only [List.foldl_cons, hcode, hlines]
        simp [write, List.replicate_succ]
  subst h
  obtain ⟨hcode, hlines⟩ := hwrite item.bytes c
  exact ⟨by simpa using hcode, [line], rfl, by simpa [spreadLines] using hlines⟩

/-- Overwrites the distance of a jump. -/
theorem Wrote.patch {c c' : Chunk} {before behind : List Item} {op : Opcode} {placeholder : Nat}
    (h : c.Wrote (before ++ .jump op placeholder :: behind) c') (distance offset : Nat)
    (hoffset : offset = c.size + codeSize before + 1) :
    c.Wrote (before ++ .jump op distance :: behind)
      { c' with
        code := (c'.code.setIfInBounds offset (UInt8.ofNat (distance / 256))).setIfInBounds
          (offset + 1) (UInt8.ofNat distance) } := by
  obtain ⟨lines, hlength, hlines⟩ := h.lines
  refine ⟨?_, lines, by simpa using hlength, ?_⟩
  · have hfront : offset = (c.code.toList ++ bytesOf before ++ [op.toByte]).length := by
      simp only [List.length_append, Array.length_toList, length_bytesOf, List.length_singleton]
      exact hoffset
    have hsplit : c'.code.toList = (c.code.toList ++ bytesOf before ++ [op.toByte]) ++
        UInt8.ofNat (placeholder / 256) :: UInt8.ofNat placeholder :: bytesOf behind := by
      rw [h.code]
      simp [Item.bytes]
    simp only [Array.toList_setIfInBounds, hsplit]
    rw [hfront, List.set_append_right _ _ (Nat.le_refl _), Nat.sub_self, List.set_cons_zero,
      List.set_append_right _ _ (Nat.le_add_right _ 1), Nat.add_sub_cancel_left,
      List.set_cons_succ, List.set_cons_zero]
    simp [Item.bytes]
  · rw [hlines]
    simp [spreadLines, Item.size]

end Chunk

namespace Builder

theorem wrote_emit (b : Builder) (op : Opcode) : b.chunk.Wrote [.plain op] (b.emit op).chunk :=
  b.chunk.wrote_item (.plain op) b.previous.line rfl

theorem wrote_emitWithByte (b : Builder) (op : Opcode) (byte : UInt8) :
    b.chunk.Wrote [.operand op byte] (b.emitWithByte op byte).chunk :=
  b.chunk.wrote_item (.operand op byte) b.previous.line rfl

theorem wrote_emit_emitWord (b : Builder) (op : Opcode) (distance : Nat) :
    b.chunk.Wrote [.jump op distance] ((b.emit op).emitWord distance).chunk :=
  b.chunk.wrote_item (.jump op distance) b.previous.line rfl

/-- The jump stands at the end of the code, with its placeholder behind the opcode. -/
theorem wrote_emitJump (b : Builder) (op : Opcode) :
    b.chunk.Wrote [.jump op distanceMax] (b.emitJump op).1.chunk ∧
      (b.emitJump op).2 = b.chunk.size + 1 := by
  have hwrote := b.wrote_emit_emitWord op distanceMax
  refine ⟨hwrote, ?_⟩
  have hsize := hwrote.size
  simp only [codeSize_cons, codeSize_nil, Item.size] at hsize
  simp only [emitJump, hsize]
  omega

theorem chunk_report (b : Builder) (t : Token) (cause : Diagnostic.Cause) :
    (b.report t cause).chunk = b.chunk := by
  unfold report
  split <;> rfl

theorem chunk_load (unread : List Token) (b : Builder) : (load unread b).chunk = b.chunk := by
  induction unread generalizing b with
  | nil => rfl
  | cons t rest ih =>
      unfold load
      split
      · rw [ih, chunk_report]
      · rfl

/-- Every byte of the code has a line. -/
def Lined (b : Builder) : Prop := b.chunk.lines.size = b.chunk.size

theorem Lined.of_eq {b b' : Builder} (h : b.Lined) (hchunk : b'.chunk = b.chunk) : b'.Lined := by
  rwa [Lined, hchunk]

theorem Lined.report {b : Builder} (h : b.Lined) (t : Token) (cause : Diagnostic.Cause) :
    (b.report t cause).Lined :=
  h.of_eq (chunk_report b t cause)

theorem Lined.emitByte {b : Builder} (h : b.Lined) (byte : UInt8) : (b.emitByte byte).Lined := by
  simpa [Lined, Builder.emitByte, Chunk.write, Chunk.size] using h

theorem Lined.dropLocals (entries : List Local) {b : Builder} (h : b.Lined) :
    (dropLocals entries b).Lined := by
  induction entries generalizing b with
  | nil => exact h
  | cons entry rest ih =>
      unfold Builder.dropLocals
      split
      · exact ih (h.emitByte _)
      · exact h

theorem closed_lined : Closed fun b b' => b.Lined → b'.Lined where
  refl _ := id
  trans h₁ h₂ := h₂ ∘ h₁
  advance b h := h.of_eq (chunk_load b.unread { b with previous := b.current })
  errorAtPrevious b cause h := h.report b.previous cause
  errorAtCurrent b cause h := h.report b.current cause
  recover _ := id
  emitByte _ byte h := h.emitByte byte
  makeConstant b v h := by
    have hadded : ({ b with chunk := (b.chunk.addConstant v).1 } : Builder).Lined := by
      unfold Chunk.addConstant
      split
      · exact h
      · dsimp only
        split <;> exact h
    unfold makeConstant
    generalize b.chunk.addConstant v = added at hadded ⊢
    obtain ⟨chunk, index⟩ := added
    cases index with
    | some index => exact hadded
    | none => exact hadded.report b.previous _
  patchJump b offset h := by
    unfold patchJump
    dsimp only
    split
    · simpa [Lined, Chunk.size] using h
    · exact h.report b.previous _
  addLocal b name h := by
    unfold addLocal
    split
    · exact h.report b.previous _
    · exact h
  markInitialized b h := by
    unfold markInitialized
    split <;> exact h
  nested hbody b h := by
    unfold nested
    split
    · exact (h.of_eq (chunk_load b.unread { b with previous := b.current })).report _ _
    · exact hbody { b with nesting := b.nesting + 1 } h
  inScope hbody b h := Lined.dropLocals _ (hbody b.beginScope h)

end Builder

end StackScript
