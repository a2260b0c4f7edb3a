/-!
The instruction set: 24 one-byte opcodes, each followed by a fixed number of operand
bytes. An opcode's byte is its place in the list of all opcodes.
-/

namespace StackScript

inductive Opcode where
  | constant
  | pushNil
  | pushTrue
  | pushFalse
  | pop
  | getLocal
  | setLocal
  | getGlobal
  | defineGlobal
  | setGlobal
  | equal
  | greater
  | less
  | add
  | subtract
  | multiply
  | divide
  | not
  | negate
  | print
  | jump
  | jumpIfFalse
  | loop
  | ret
  deriving DecidableEq, Repr, Inhabited

namespace Opcode

/-- All opcodes in the order of their bytes. -/
def all : Array Opcode :=
  #[.constant, .pushNil, .pushTrue, .pushFalse, .pop, .getLocal, .setLocal, .getGlobal,
    .defineGlobal, .setGlobal, .equal, .greater, .less, .add, .subtract, .multiply, .divide,
    .not, .negate, .print, .jump, .jumpIfFalse, .loop, .ret]

def toByte (op : Opcode) : UInt8 :=
  UInt8.ofNat op.ctorIdx

def ofByte? (byte : UInt8) : Option Opcode :=
  all[byte.toNat]?

/-- How many operand bytes follow the opcode. -/
def operandBytes : Opcode → Nat
  | .constant | .getLocal | .setLocal | .getGlobal | .defineGlobal | .setGlobal => 1
  | .jump | .jumpIfFalse | .loop => 2
  | _ => 0

/-- The name that listings show. -/
def name : Opcode → String
  | .constant => "OP_CONSTANT"
  | .pushNil => "OP_NIL"
  | .pushTrue => "OP_TRUE"
  | .pushFalse => "OP_FALSE"
  | .pop => "OP_POP"
  | .getLocal => "OP_GET_LOCAL"
  | .setLocal => "OP_SET_LOCAL"
  | .getGlobal => "OP_GET_GLOBAL"
  | .defineGlobal => "OP_DEFINE_GLOBAL"
  | .setGlobal => "OP_SET_GLOBAL"
  | .equal => "OP_EQUAL"
  | .greater => "OP_GREATER"
  | .less => "OP_LESS"
  | .add => "OP_ADD"
  | .subtract => "OP_SUBTRACT"
  | .multiply => "OP_MULTIPLY"
  | .divide => "OP_DIVIDE"
  | .not => "OP_NOT"
  | .negate => "OP_NEGATE"
  | .print => "OP_PRINT"
  | .jump => "OP_JUMP"
  | .jumpIfFalse => "OP_JUMP_IF_FALSE"
  | .loop => "OP_LOOP"
  | .ret => "OP_RETURN"

@[simp] theorem ofByte?_toByte (op : Opcode) : ofByte? op.toByte = some op := by
  cases op <;> rfl

theorem toByte_all (i : Fin all.size) : all[i].toByte.toNat = i.val := by
  revert i
  decide

theorem toByte_of_ofByte? {byte : UInt8} {op : Opcode} (h : ofByte? byte = some op) :
    op.toByte = byte := by
  obtain ⟨hlt, rfl⟩ := Array.getElem?_eq_some_iff.mp h
  exact UInt8.toNat_inj.mp (toByte_all ⟨byte.toNat, hlt⟩)

end Opcode

end StackScript
