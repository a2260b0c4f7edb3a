/-!
What can go wrong while a chunk runs: wrong operands, undefined variables, a stack that
is too full or too empty, and code that is malformed.
-/

namespace StackScript

inductive Fault where
  | operandMustBeNumber
  | operandsMustBeNumbers
  | operandsMustBeNumbersOrStrings
  | undefinedVariable (name : String)
  | stackOverflow
  | stackUnderflow
  | unknownOpcode (byte : UInt8)
  | truncatedInstruction
  | invalidConstant (index : UInt8)
  | invalidJump
  deriving DecidableEq, Repr

def Fault.message : Fault → String
  | .operandMustBeNumber => "Operand must be a number."
  | .operandsMustBeNumbers => "Operands must be numbers."
  | .operandsMustBeNumbersOrStrings => "Operands must be two numbers or two strings."
  | .undefinedVariable name => "Undefined variable '" ++ name ++ "'."
  | .stackOverflow => "Stack overflow."
  | .stackUnderflow => "Stack underflow."
  | .unknownOpcode byte => "Unknown opcode " ++ byte.toNat.repr ++ "."
  | .truncatedInstruction => "Instruction is missing its operands."
  | .invalidConstant index => "Constant index " ++ index.toNat.repr ++ " is out of range."
  | .invalidJump => "Jump target is before the start of the chunk."

/-- A fault and the line of the instruction that raised it. -/
structure RuntimeError where
  fault : Fault
  line : Nat
  deriving DecidableEq, Repr

def RuntimeError.message (e : RuntimeError) : String :=
  e.fault.message ++ "\n[line " ++ e.line.repr ++ "] in script"

end StackScript
