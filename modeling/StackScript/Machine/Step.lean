import StackScript.Instruction
import StackScript.Machine.Stack
import StackScript.Machine.Globals

/-!
The machine and the effect of one instruction on it. A failing instruction keeps what
it has already done: operands that were popped stay popped.
-/

namespace StackScript

/-- Where printed bytes go. A sink may have a limit on all the bytes it ever takes; a write
that does not fit leaves the part that does and fails. -/
structure Sink where
  limit : Option Nat := none
  written : Array UInt8 := #[]

namespace Sink

/-- Writes as many bytes as fit, and tells whether those were all. -/
def write (s : Sink) (bytes : Array UInt8) : Sink × Bool :=
  match s.limit with
  | none => ({ s with written := s.written ++ bytes }, true)
  | some limit =>
      let room := limit - s.written.size
      if bytes.size ≤ room then ({ s with written := s.written ++ bytes }, true)
      else ({ s with written := s.written ++ bytes.extract 0 room }, false)

@[simp] theorem limit_write (s : Sink) (bytes : Array UInt8) :
    (s.write bytes).1.limit = s.limit := by
  unfold write
  split
  · rfl
  · dsimp only
    split <;> rfl

/-- A write without a limit takes all bytes. -/
theorem write_of_unlimited (s : Sink) (bytes : Array UInt8) (h : s.limit = none) :
    s.write bytes = ({ s with written := s.written ++ bytes }, true) := by
  unfold write
  rw [h]

end Sink

structure Machine where
  stack : Stack := .empty
  globals : Globals := {}
  sink : Sink := {}

/-- Why an instruction is not followed by another one. -/
inductive Stop where
  | returned
  | fault (f : Fault)
  | outputClosed
  | outOfRange
  deriving DecidableEq, Repr

/-- An effect on the machine that may stop it. -/
abbrev Exec := EStateM Stop Machine

namespace Exec

def raise {α : Type} (f : Fault) : Exec α :=
  throw (.fault f)

def push (v : Value) : Exec Unit := fun m =>
  if m.stack.height = Stack.capacity then .error (.fault .stackOverflow) m
  else if m.stack.height < m.stack.slots.size then .ok () { m with stack := m.stack.push v }
  else .error .outOfRange m

def pop : Exec Value := fun m =>
  if m.stack.height = 0 then .error (.fault .stackUnderflow) m
  else
    match m.stack.slots[m.stack.height - 1]? with
    | some v => .ok v { m with stack := m.stack.drop }
    | none => .error .outOfRange m

/-- The top value, which stays. -/
def peek : Exec Value := fun m =>
  if m.stack.height = 0 then .error (.fault .stackUnderflow) m
  else
    match m.stack.slots[m.stack.height - 1]? with
    | some v => .ok v m
    | none => .error .outOfRange m

def load (slot : Nat) : Exec Value := fun m =>
  match m.stack.slots[slot]? with
  | some v => .ok v m
  | none => .error .outOfRange m

def store (slot : Nat) (v : Value) : Exec Unit := fun m =>
  if slot < m.stack.slots.size then .ok () { m with stack := m.stack.store slot v }
  else .error .outOfRange m

def getGlobal (name : String) : Exec Value := fun m =>
  match m.globals.get? name with
  | some v => .ok v m
  | none => .error (.fault (.undefinedVariable name)) m

def defineGlobal (name : String) (v : Value) : Exec Unit := fun m =>
  .ok () { m with globals := m.globals.insert name v }

/-- Changes a variable that has to exist. -/
def setGlobal (name : String) (v : Value) : Exec Unit := fun m =>
  if m.globals.contains name then .ok () { m with globals := m.globals.insert name v }
  else .error (.fault (.undefinedVariable name)) m

def write (bytes : Array UInt8) : Exec Unit := fun ⟨stack, globals, sink⟩ =>
  match sink.write bytes with
  | (sink, true) => .ok () ⟨stack, globals, sink⟩
  | (sink, false) => .error .outputClosed ⟨stack, globals, sink⟩

/-- What the sink has taken stays written, whether or not it was all. -/
theorem write_eq (bytes : Array UInt8) (m : Machine) :
    write bytes m =
      if (m.sink.write bytes).2 then .ok () { m with sink := (m.sink.write bytes).1 }
      else .error .outputClosed { m with sink := (m.sink.write bytes).1 } := by
  obtain ⟨stack, globals, sink⟩ := m
  unfold write
  dsimp only
  generalize sink.write bytes = written
  obtain ⟨sink, whole⟩ := written
  cases whole <;> rfl

/-- The right operand is popped first; both are gone when they are of the wrong kind. -/
def arithmetic (f : Number → Number → Value) : Exec Unit := do
  let right ← pop
  let left ← pop
  match left, right with
  | .number x, .number y => push (f x y)
  | _, _ => raise .operandsMustBeNumbers

/-- The sum of two numbers or the concatenation of two strings. -/
def add : Exec Unit := do
  let right ← pop
  let left ← pop
  match left, right with
  | .number x, .number y => push (.number (x + y))
  | .string s, .string t => push (.string (s ++ t))
  | _, _ => raise .operandsMustBeNumbersOrStrings

end Exec

/-- The bytes that printing a value writes. -/
def Value.printed (v : Value) : Array UInt8 :=
  (v.text ++ "\n").toUTF8.data

namespace Instruction

open Exec

/-- Executes an instruction and gives the offset to go on at; `next` is the one behind
the instruction. -/
def exec (next : Nat) : Instruction → Exec Nat
  | .push v => do
      Exec.push v
      return next
  | .pop => do
      let _ ← Exec.pop
      return next
  | .getLocal slot => do
      let v ← load slot.toNat
      Exec.push v
      return next
  | .setLocal slot => do
      let v ← peek
      store slot.toNat v
      return next
  | .getGlobal name => do
      let v ← Exec.getGlobal name
      Exec.push v
      return next
  | .defineGlobal name => do
      let v ← Exec.pop
      Exec.defineGlobal name v
      return next
  | .setGlobal name => do
      let v ← peek
      Exec.setGlobal name v
      return next
  | .equal => do
      let right ← Exec.pop
      let left ← Exec.pop
      Exec.push (.bool (left.equal right))
      return next
  | .greater => do
      arithmetic fun x y => .bool (x > y)
      return next
  | .less => do
      arithmetic fun x y => .bool (x < y)
      return next
  | .add => do
      Exec.add
      return next
  | .subtract => do
      arithmetic fun x y => .number (x - y)
      return next
  | .multiply => do
      arithmetic fun x y => .number (x * y)
      return next
  | .divide => do
      arithmetic fun x y => .number (x / y)
      return next
  | .not => do
      let v ← Exec.pop
      Exec.push (.bool v.isFalsey)
      return next
  | .negate => do
      match ← Exec.pop with
      | .number x =>
          Exec.push (.number (-x))
          return next
      | _ => raise .operandMustBeNumber
  | .print => do
      let v ← Exec.pop
      write v.printed
      return next
  | .jump distance => return next + distance
  | .jumpIfFalse distance => do
      let v ← peek
      return if v.isFalsey then next + distance else next
  | .loop distance =>
      if distance ≤ next then return next - distance else raise .invalidJump
  | .ret => throw .returned

end Instruction

end StackScript
