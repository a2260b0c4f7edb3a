import StackScript.Chunk
import StackScript.Fault

/-!
Instructions with their operands resolved. Fetching reads all bytes of an instruction
before anything is executed, so malformed code is found first; the offset behind the
last byte read is known in either case.
-/

namespace StackScript

inductive Instruction where
  | push (v : Value)
  | pop
  | getLocal (slot : UInt8)
  | setLocal (slot : UInt8)
  | getGlobal (name : String)
  | defineGlobal (name : String)
  | setGlobal (name : String)
  | equal
  | greater
  | less
  | add
  | subtract
  | multiply
  | divide
  | not
  | negate
  | print
  | jump (distance : Nat)
  | jumpIfFalse (distance : Nat)
  | loop (distance : Nat)
  | ret

/-- What was read at an offset, and the offset behind it. -/
structure Fetched where
  next : Nat
  result : Except Fault Instruction

namespace Chunk

/-- An instruction with a one-byte operand at `offset`. -/
def fetchByte (c : Chunk) (offset : Nat) (make : UInt8 → Except Fault Instruction) : Fetched :=
  match c.code[offset]? with
  | none => ⟨offset, .error .truncatedInstruction⟩
  | some byte => ⟨offset + 1, make byte⟩

/-- An instruction with a two-byte operand at `offset`. -/
def fetchWord (c : Chunk) (offset : Nat) (make : Nat → Instruction) : Fetched :=
  match c.code[offset]? with
  | none => ⟨offset, .error .truncatedInstruction⟩
  | some high =>
      match c.code[offset + 1]? with
      | none => ⟨offset + 1, .error .truncatedInstruction⟩
      | some low => ⟨offset + 2, .ok (make (word high low))⟩

/-- An instruction whose operand is the index of a constant. -/
def fetchConstant (c : Chunk) (offset : Nat) (make : Value → Instruction) : Fetched :=
  c.fetchByte offset fun index =>
    match c.constants[index.toNat]? with
    | none => .error (.invalidConstant index)
    | some v => .ok (make v)

/-- The operands of `op`, which start at `offset`. A global is named by the text of a
constant, whatever kind of value that is. -/
def fetchOperands (c : Chunk) (offset : Nat) : Opcode → Fetched
  | .constant => c.fetchConstant offset .push
  | .pushNil => ⟨offset, .ok (.push .nil)⟩
  | .pushTrue => ⟨offset, .ok (.push (.bool true))⟩
  | .pushFalse => ⟨offset, .ok (.push (.bool false))⟩
  | .pop => ⟨offset, .ok .pop⟩
  | .getLocal => c.fetchByte offset fun slot => .ok (.getLocal slot)
  | .setLocal => c.fetchByte offset fun slot => .ok (.setLocal slot)
  | .getGlobal => c.fetchConstant offset fun v => .getGlobal v.text
  | .defineGlobal => c.fetchConstant offset fun v => .defineGlobal v.text
  | .setGlobal => c.fetchConstant offset fun v => .setGlobal v.text
  | .equal => ⟨offset, .ok .equal⟩
  | .greater => ⟨offset, .ok .greater⟩
  | .less => ⟨offset, .ok .less⟩
  | .add => ⟨offset, .ok .add⟩
  | .subtract => ⟨offset, .ok .subtract⟩
  | .multiply => ⟨offset, .ok .multiply⟩
  | .divide => ⟨offset, .ok .divide⟩
  | .not => ⟨offset, .ok .not⟩
  | .negate => ⟨offset, .ok .negate⟩
  | .print => ⟨offset, .ok .print⟩
  | .jump => c.fetchWord offset .jump
  | .jumpIfFalse => c.fetchWord offset .jumpIfFalse
  | .loop => c.fetchWord offset .loop
  | .ret => ⟨offset, .ok .ret⟩

/-- The instruction at `offset`. -/
def fetch (c : Chunk) (offset : Nat) : Fetched :=
  match c.code[offset]? with
  | none => ⟨offset, .error .truncatedInstruction⟩
  | some byte =>
      match Opcode.ofByte? byte with
      | none => ⟨offset + 1, .error (.unknownOpcode byte)⟩
      | some op => c.fetchOperands (offset + 1) op

/-- The line of the byte before `offset`; zero where none is recorded. -/
def lineBefore (c : Chunk) (offset : Nat) : Nat :=
  if offset = 0 then 0 else (c.lines[offset - 1]?).getD 0

end Chunk

end StackScript
