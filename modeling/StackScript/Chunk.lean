import StackScript.Value
import StackScript.Opcode

/-!
A chunk is one compiled unit: code bytes, the source line of each byte, and the pool
of constants that one-byte operands point into.
-/

namespace StackScript

structure Chunk where
  code : Array UInt8 := #[]
  lines : Array Nat := #[]
  constants : Array Value := #[]
  deriving Inhabited

namespace Chunk

/-- The largest pool that one-byte operands can address. -/
def constantsMax : Nat := 256

/-- The number of code bytes. -/
def size (c : Chunk) : Nat := c.code.size

def isEmpty (c : Chunk) : Bool := c.code.isEmpty

/-- Appends a code byte that belongs to `line`. -/
def write (c : Chunk) (byte : UInt8) (line : Nat) : Chunk :=
  { c with code := c.code.push byte, lines := c.lines.push line }

@[simp] theorem size_write (c : Chunk) (byte : UInt8) (line : Nat) :
    (c.write byte line).size = c.size + 1 := by
  simp [size, write]

@[simp] theorem constants_write (c : Chunk) (byte : UInt8) (line : Nat) :
    (c.write byte line).constants = c.constants :=
  rfl

/-- Finds a constant in the pool, or adds it there. A pool with exactly
`constantsMax` entries takes no more. The index is narrowed to one byte. -/
def addConstant (c : Chunk) (v : Value) : Chunk × Option UInt8 :=
  match c.constants.findIdx? (·.same v) with
  | some i => (c, some (UInt8.ofNat i))
  | none =>
      let i := c.constants.size
      if i = constantsMax then (c, none)
      else ({ c with constants := c.constants.push v }, some (UInt8.ofNat i))

/-- The opcode at `offset`, when that byte is one. -/
def opAt? (c : Chunk) (offset : Nat) : Option Opcode :=
  c.code[offset]?.bind Opcode.ofByte?

/-- A two-byte operand, high byte first. -/
def word (high low : UInt8) : Nat :=
  high.toNat * 256 + low.toNat

/-- The two-byte operand at `offset`, when both bytes are there. -/
def wordAt? (c : Chunk) (offset : Nat) : Option Nat := do
  let high ← c.code[offset]?
  let low ← c.code[offset + 1]?
  return word high low

/-- Chunks are equal when their bytes and lines agree and their constants are equal as
values of the language. -/
def equal (a b : Chunk) : Bool :=
  a.code == b.code && a.lines == b.lines && a.constants.isEqv b.constants Value.equal

end Chunk

end StackScript
