import StackScript.Proofs.Builder.Writing
import StackScript.Listing
import StackScript.Instruction

/-!
Instructions at their offsets. Whatever stands around them, the bytes of some instructions
at an offset are fetched as those instructions, one after the other.
-/

namespace StackScript

open Tree

namespace Tree.Item

def op : Item → Opcode
  | .plain op | .operand op _ | .jump op _ => op

/-- The instruction has as many operand bytes as its opcode asks for. -/
def Shaped (item : Item) : Prop :=
  item.size = 1 + item.op.operandBytes

theorem size_pos (item : Item) : 0 < item.size := by
  cases item <;> exact Nat.succ_pos _

end Tree.Item

namespace Chunk

/-- At `offset` the code has the bytes of these instructions. -/
def Has (c : Chunk) (offset : Nat) (items : List Item) : Prop :=
  bytesOf items <+: c.code.toList.drop offset

variable {c : Chunk} {offset : Nat}

theorem has_append {first second : List Item} : c.Has offset (first ++ second) ↔
    c.Has offset first ∧ c.Has (offset + codeSize first) second := by
  simp only [Has, bytesOf_append, ← List.drop_drop]
  constructor
  · rintro ⟨rest, hrest⟩
    refine ⟨⟨bytesOf second ++ rest, by rw [← hrest, List.append_assoc]⟩, rest, ?_⟩
    rw [← hrest, List.append_assoc, ← length_bytesOf, List.drop_left]
  · rintro ⟨⟨behind, hbehind⟩, hsecond⟩
    rw [← hbehind, ← length_bytesOf, List.drop_left] at hsecond
    obtain ⟨rest, rfl⟩ := hsecond
    exact ⟨rest, by rw [← hbehind, List.append_assoc]⟩

theorem has_cons {item : Item} {rest : List Item} : c.Has offset (item :: rest) ↔
    c.Has offset [item] ∧ c.Has (offset + item.size) rest := by
  have happend := @has_append c offset [item] rest
  simpa using happend

theorem Has.le_size {items : List Item} (h : c.Has offset items) (hpos : 0 < codeSize items) :
    offset + codeSize items ≤ c.size := by
  have hlength := h.length_le
  rw [length_bytesOf, List.length_drop, Array.length_toList] at hlength
  simp only [Chunk.size]
  omega

theorem Has.getElem? {item : Item} {rest : List Item} (h : c.Has offset (item :: rest)) {i : Nat}
    (hi : i < item.size) : c.code[offset + i]? = item.bytes[i]? := by
  have hitem := (has_cons.mp h).1
  have hlt : i < (bytesOf [item]).length := by simpa using hi
  have hbyte := List.prefix_iff_getElem?.mp hitem i hlt
  rw [List.getElem?_drop, Array.getElem?_toList] at hbyte
  rw [hbyte]
  simp

theorem Has.lt_size {item : Item} {rest : List Item} (h : c.Has offset (item :: rest)) :
    offset < c.size := by
  have hpos := item.size_pos
  have hle := (has_cons.mp h).1.le_size (by simpa using hpos)
  simp only [codeSize_cons, codeSize_nil] at hle
  omega

theorem Has.opcode {item : Item} {rest : List Item} (h : c.Has offset (item :: rest)) :
    c.code[offset]? = some item.op.toByte := by
  have hbyte := h.getElem? item.size_pos
  rw [Nat.add_zero] at hbyte
  rw [hbyte]
  cases item <;> rfl

theorem Has.opAt? {item : Item} {rest : List Item} (h : c.Has offset (item :: rest)) :
    c.opAt? offset = some item.op := by
  rw [Chunk.opAt?, h.opcode]
  exact Opcode.ofByte?_toByte item.op

theorem Has.byte {op : Opcode} {byte : UInt8} {rest : List Item}
    (h : c.Has offset (.operand op byte :: rest)) : c.code[offset + 1]? = some byte :=
  h.getElem? Nat.one_lt_two

/-- A distance within the limit is read back as it was written. -/
theorem word_ofNat {distance : Nat} (hfits : distance ≤ Builder.distanceMax) :
    word (UInt8.ofNat (distance / 256)) (UInt8.ofNat distance) = distance := by
  have hlt : distance < 65536 := Nat.lt_succ_of_le hfits
  rw [word, UInt8.toNat_ofNat', UInt8.toNat_ofNat']
  omega

theorem Has.word {op : Opcode} {distance : Nat} {rest : List Item}
    (h : c.Has offset (.jump op distance :: rest)) :
    c.code[offset + 1]? = some (UInt8.ofNat (distance / 256)) ∧
      c.code[offset + 2]? = some (UInt8.ofNat distance) :=
  ⟨h.getElem? (show 1 < 3 by decide), h.getElem? (show 2 < 3 by decide)⟩

theorem Has.wordAt? {op : Opcode} {distance : Nat} {rest : List Item}
    (h : c.Has offset (.jump op distance :: rest)) (hfits : distance ≤ Builder.distanceMax) :
    c.wordAt? (offset + 1) = some distance := by
  obtain ⟨hhigh, hlow⟩ := h.word
  simp [Chunk.wordAt?, hhigh, hlow, word_ofNat hfits]

section Fetch

theorem Has.fetch {item : Item} {rest : List Item} (h : c.Has offset (item :: rest)) :
    c.fetch offset = c.fetchOperands (offset + 1) item.op := by
  unfold Chunk.fetch
  rw [h.opcode]
  simp only [Opcode.ofByte?_toByte]

theorem Has.fetchByte {op : Opcode} {byte : UInt8} {rest : List Item}
    (h : c.Has offset (.operand op byte :: rest)) (make : UInt8 → Except Fault Instruction) :
    c.fetchByte (offset + 1) make = ⟨offset + 2, make byte⟩ := by
  unfold Chunk.fetchByte
  rw [h.byte]

theorem Has.fetchConstant {op : Opcode} {byte : UInt8} {rest : List Item} {v : Value}
    (h : c.Has offset (.operand op byte :: rest)) (hv : c.constants[byte.toNat]? = some v)
    (make : Value → Instruction) :
    c.fetchConstant (offset + 1) make = ⟨offset + 2, .ok (make v)⟩ := by
  unfold Chunk.fetchConstant
  rw [h.fetchByte, hv]

theorem Has.fetchWord {op : Opcode} {distance : Nat} {rest : List Item}
    (h : c.Has offset (.jump op distance :: rest)) (hfits : distance ≤ Builder.distanceMax)
    (make : Nat → Instruction) :
    c.fetchWord (offset + 1) make = ⟨offset + 3, .ok (make distance)⟩ := by
  obtain ⟨hhigh, hlow⟩ := h.word
  unfold Chunk.fetchWord
  rw [hhigh]
  simp only [hlow, word_ofNat hfits]

end Fetch

end Chunk

end StackScript
