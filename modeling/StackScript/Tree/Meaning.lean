import StackScript.Tree
import StackScript.Fault
import StackScript.Machine.Globals
import StackScript.Machine.Stack

/-!
What programs do, told on trees: operands are evaluated from left to right, local
variables live in an environment that follows the blocks, and no bytecode occurs. The
bound on live values is part of the language, so a value is only held while there is
room for it beside the locals in scope and the operands that wait.
-/

namespace StackScript.Tree

/-- What a program works on. The innermost local comes first. -/
structure Store where
  locals : List (String × Value) := []
  globals : Globals := {}
  output : Array UInt8 := #[]

/-- Why evaluation ends early. Running out of fuel says nothing about the program. -/
inductive Halt where
  | fault (f : Fault)
  | outOfFuel
  deriving DecidableEq, Repr

abbrev Eval := EStateM Halt Store

namespace Eval

def raise {α : Type} (f : Fault) : Eval α :=
  throw (.fault f)

/-- Holds a value beside `waiting` operands. -/
def hold (waiting : Nat) (v : Value) : Eval Value := fun s =>
  if s.locals.length + waiting < Stack.capacity then .ok v s
  else .error (.fault .stackOverflow) s

/-- A local of this name hides a global one. -/
def read (x : String) : Eval Value := fun s =>
  match s.locals.lookup x with
  | some v => .ok v s
  | none =>
      match s.globals.get? x with
      | some v => .ok v s
      | none => .error (.fault (.undefinedVariable x)) s

/-- Changes the innermost local of this name. -/
def update (x : String) (v : Value) : List (String × Value) → List (String × Value)
  | [] => []
  | entry :: rest => if entry.1 = x then (x, v) :: rest else entry :: update x v rest

def write (x : String) (v : Value) : Eval Unit := fun s =>
  if (s.locals.lookup x).isSome then .ok () { s with locals := update x v s.locals }
  else if s.globals.contains x then .ok () { s with globals := s.globals.insert x v }
  else .error (.fault (.undefinedVariable x)) s

def declare (top : Bool) (x : String) (v : Value) : Eval Unit := fun s =>
  if top then .ok () { s with globals := s.globals.insert x v }
  else .ok () { s with locals := (x, v) :: s.locals }

def print (v : Value) : Eval Unit := fun s =>
  .ok () { s with output := s.output ++ (v.text ++ "\n").toUTF8.data }

/-- Runs `body` in a scope of its own. -/
def inScope (body : Eval Unit) : Eval Unit := do
  let outer := (← get).locals.length
  body
  modify fun s => { s with locals := s.locals.drop (s.locals.length - outer) }

/-- Repeats `body` while `condition` holds, with fuel for so many tests. -/
def iterate (condition : Eval Bool) (body : Eval Unit) : Nat → Eval Unit
  | 0 => throw .outOfFuel
  | fuel + 1 => do
      if ← condition then
        body
        iterate condition body fuel

end Eval

def UnaryOp.apply : UnaryOp → Value → Eval Value
  | .negate, .number x => return .number (-x)
  | .negate, _ => Eval.raise .operandMustBeNumber
  | .not, v => return .bool v.isFalsey

/-- A comparison without an order test of its own is the negation of one that has. -/
def BinaryOp.apply : BinaryOp → Value → Value → Eval Value
  | .equal, v, w => return .bool (v.equal w)
  | .notEqual, v, w => return .bool (!v.equal w)
  | .greater, .number x, .number y => return .bool (x > y)
  | .greaterEqual, .number x, .number y => return .bool (!decide (x < y))
  | .less, .number x, .number y => return .bool (x < y)
  | .lessEqual, .number x, .number y => return .bool (!decide (x > y))
  | .add, .number x, .number y => return .number (x + y)
  | .add, .string s, .string t => return .string (s ++ t)
  | .add, _, _ => Eval.raise .operandsMustBeNumbersOrStrings
  | .subtract, .number x, .number y => return .number (x - y)
  | .multiply, .number x, .number y => return .number (x * y)
  | .divide, .number x, .number y => return .number (x / y)
  | _, _, _ => Eval.raise .operandsMustBeNumbers

/-- The value of an expression, while `waiting` operands of others are held. -/
def Expr.eval (waiting : Nat) : Expr → Eval Value
  | .nil => Eval.hold waiting .nil
  | .bool b => Eval.hold waiting (.bool b)
  | .number literal => Eval.hold waiting (numberValue literal)
  | .string s => Eval.hold waiting (.string s)
  | .name x => do
      let v ← Eval.read x
      Eval.hold waiting v
  | .assign x value => do
      let v ← value.eval waiting
      Eval.write x v
      return v
  | .unary op operand => do
      let v ← operand.eval waiting
      op.apply v
  | .binary op left right => do
      let v ← left.eval waiting
      let w ← right.eval (waiting + 1)
      op.apply v w
  | .and left right => do
      let v ← left.eval waiting
      if v.isFalsey then return v else right.eval waiting
  | .or left right => do
      let v ← left.eval waiting
      if v.isFalsey then right.eval waiting else return v
  | .group inner => inner.eval waiting

/-- Whether a condition holds; a loop without one goes on. -/
def holds : Option Expr → Eval Bool
  | none => return true
  | some e => do
      let v ← e.eval 0
      return !v.isFalsey

/-- Evaluates an expression for its effects, if there is one. -/
def discard : Option Expr → Eval Unit
  | none => return
  | some e => do
      let _ ← e.eval 0

/-- Executes a statement; `top` tells whether declarations make globals. Every loop
has fuel for as many tests of its condition. -/
def Stmt.exec (fuel : Nat) (top : Bool) : Stmt → Eval Unit
  | .skip => return
  | .seq first rest => do
      first.exec fuel top
      rest.exec fuel top
  | .var x value => do
      let v ← (value.getD .nil).eval 0
      Eval.declare top x v
  | .print e => do
      let v ← e.eval 0
      Eval.print v
  | .expression e => discard (some e)
  | .block body => Eval.inScope (body.exec fuel false)
  | .branch condition yes no => do
      if ← holds (some condition) then yes.exec fuel top else no.exec fuel top
  | .whileLoop condition body => Eval.iterate (holds (some condition)) (body.exec fuel top) fuel
  | .forLoop first condition increment body =>
      Eval.inScope do
        first.exec fuel false
        Eval.iterate (holds condition) (do body.exec fuel false; discard increment) fuel

/-- What a whole program comes to: the fault that ends it, if one does, and the store then.
There is no result when some loop needs more fuel. -/
def Stmt.evaluate (fuel : Nat) (globals : Globals) (program : Stmt) :
    Option (Option Fault × Store) :=
  match program.exec fuel true { globals } with
  | .ok _ s => some (none, s)
  | .error (.fault f) s => some (some f, s)
  | .error .outOfFuel _ => none

end StackScript.Tree
