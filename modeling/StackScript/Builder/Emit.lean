import StackScript.Builder.Basic

/-!
Writing code. Every byte belongs to the line of the token read last. Jumps forward are
written with a placeholder distance and patched when their target is known.
-/

namespace StackScript.Builder

/-- The largest distance that a two-byte operand holds. -/
def distanceMax : Nat := 65535

def emitByte (b : Builder) (byte : UInt8) : Builder :=
  { b with chunk := b.chunk.write byte b.previous.line }

def emit (b : Builder) (op : Opcode) : Builder :=
  b.emitByte op.toByte

def emitWithByte (b : Builder) (op : Opcode) (operand : UInt8) : Builder :=
  (b.emit op).emitByte operand

/-- A two-byte operand, high byte first. -/
def emitWord (b : Builder) (word : Nat) : Builder :=
  (b.emitByte (UInt8.ofNat (word / 256))).emitByte (UInt8.ofNat word)

/-- Puts a constant into the pool. In a full pool it is given the first index. -/
def makeConstant (b : Builder) (v : Value) : Builder × UInt8 :=
  match b.chunk.addConstant v with
  | (chunk, some index) => ({ b with chunk }, index)
  | (chunk, none) => (({ b with chunk }).errorAtPrevious .tooManyConstants, 0)

def emitConstant (b : Builder) (v : Value) : Builder :=
  let (b, index) := b.makeConstant v
  b.emitWithByte .constant index

/-- A jump with a placeholder; also gives the offset of the placeholder. -/
def emitJump (b : Builder) (op : Opcode) : Builder × Nat :=
  let b := (b.emit op).emitWord distanceMax
  (b, b.chunk.size - 2)

/-- Lets the jump with its placeholder at `offset` lead to the end of the code. -/
def patchJump (b : Builder) (offset : Nat) : Builder :=
  let distance := b.chunk.size - offset - 2
  if distance ≤ distanceMax then
    { b with
      chunk.code := (b.chunk.code.setIfInBounds offset (UInt8.ofNat (distance / 256))).setIfInBounds
        (offset + 1) (UInt8.ofNat distance) }
  else b.errorAtPrevious .jumpTooLarge

/-- A jump back to `start`. Its distance is counted from behind its operand. -/
def emitLoop (b : Builder) (start : Nat) : Builder :=
  let b := b.emit .loop
  let distance := b.chunk.size - start + 2
  if distance ≤ distanceMax then b.emitWord distance
  else (b.errorAtPrevious .loopTooLarge).emitWord 0

end StackScript.Builder
