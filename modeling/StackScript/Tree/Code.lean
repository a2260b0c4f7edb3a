import StackScript.Tree
import StackScript.Chunk

/-!
The code of a tree, put together from the code of its parts. Distances of jumps are the
sizes of what they jump over. The pool of constants is fixed beforehand: it holds every
constant of the program once, in the order in which the source mentions them.
-/

namespace StackScript.Tree

-- Sums are those of the natural numbers, whatever else is in scope.
attribute [local instance (2000)] Zero.ofOfNat0

/-- One instruction in symbolic form. -/
inductive Item where
  | plain (op : Opcode)
  | operand (op : Opcode) (byte : UInt8)
  | jump (op : Opcode) (distance : Nat)
  deriving DecidableEq, Repr

namespace Item

def size : Item → Nat
  | .plain _ => 1
  | .operand _ _ => 2
  | .jump _ _ => 3

def bytes : Item → List UInt8
  | .plain op => [op.toByte]
  | .operand op byte => [op.toByte, byte]
  | .jump op distance => [op.toByte, UInt8.ofNat (distance / 256), UInt8.ofNat distance]

@[simp] theorem length_bytes (item : Item) : item.bytes.length = item.size := by
  cases item <;> rfl

end Item

/-- The number of bytes. -/
def codeSize (items : List Item) : Nat :=
  (items.map Item.size).sum

def bytesOf (items : List Item) : List UInt8 :=
  items.flatMap Item.bytes

@[simp] theorem codeSize_append (first second : List Item) :
    codeSize (first ++ second) = codeSize first + codeSize second := by
  simp [codeSize]

@[simp] theorem length_bytesOf (items : List Item) : (bytesOf items).length = codeSize items := by
  induction items with
  | nil => rfl
  | cons item rest ih =>
      simp only [bytesOf, List.flatMap_cons, List.length_append, Item.length_bytes] at ih ⊢
      simp [codeSize, ih]

/-- The names of the locals in scope, innermost first. -/
abbrev Scope := List String

/-- The slot of the innermost local of this name; slots are counted from the
outermost. -/
def Scope.slot? (scope : Scope) (x : String) : Option UInt8 :=
  (scope.findIdx? (· = x)).map fun i => UInt8.ofNat (scope.length - 1 - i)

theorem Scope.not_mem_of_slot? {scope : Scope} {x : String} (h : scope.slot? x = none) :
    x ∉ scope := by
  intro hmem
  have hne := List.findIdx?_eq_none_iff.mp (Option.map_eq_none_iff.mp h) x hmem
  simp at hne

/-- The constant that names a variable, unless it is a local. -/
def Scope.nameConstant (scope : Scope) (x : String) : List Value :=
  if scope.contains x then [] else [.string x]

/-- The constants of an expression in the order of the source. -/
def Expr.constants (scope : Scope) : Expr → List Value
  | .nil | .bool _ => []
  | .number literal => [numberValue literal]
  | .string s => [.string s]
  | .name x => scope.nameConstant x
  | .assign x value => scope.nameConstant x ++ value.constants scope
  | .unary _ operand => operand.constants scope
  | .binary _ left right | .and left right | .or left right =>
      left.constants scope ++ right.constants scope
  | .group inner => inner.constants scope

def optionalConstants (scope : Scope) (e : Option Expr) : List Value :=
  (e.map (Expr.constants scope)).getD []

/-- The scope behind a statement; `top` tells whether declarations make globals. -/
def Stmt.scopeAfter (top : Bool) (scope : Scope) : Stmt → Scope
  | .var x _ => if top then scope else x :: scope
  | .seq first rest => rest.scopeAfter top (first.scopeAfter top scope)
  | _ => scope

def Stmt.constants (top : Bool) (scope : Scope) : Stmt → List Value
  | .skip => []
  | .seq first rest =>
      first.constants top scope ++ rest.constants top (first.scopeAfter top scope)
  | .var x value => (if top then [.string x] else []) ++ optionalConstants scope value
  | .print e | .expression e => e.constants scope
  | .block body => body.constants false scope
  | .branch condition yes no =>
      condition.constants scope ++ yes.constants top scope ++ no.constants top scope
  | .whileLoop condition body => condition.constants scope ++ body.constants top scope
  | .forLoop first condition increment body =>
      let inner := first.scopeAfter false scope
      first.constants false scope ++ optionalConstants inner condition ++
        optionalConstants inner increment ++ body.constants false inner

/-- Adds a constant unless it is there. -/
def addToPool (pool : List Value) (v : Value) : List Value :=
  if pool.any (·.same v) then pool else pool ++ [v]

/-- The pool of a program. -/
def Stmt.pool (program : Stmt) : List Value :=
  (program.constants true []).foldl addToPool []

/-- The operand that stands for a constant. -/
def indexIn (pool : List Value) (v : Value) : UInt8 :=
  UInt8.ofNat (pool.findIdx (·.same v))

def UnaryOp.opcode : UnaryOp → Opcode
  | .negate => .negate
  | .not => .not

def BinaryOp.opcodes : BinaryOp → List Opcode
  | .equal => [.equal]
  | .notEqual => [.equal, .not]
  | .greater => [.greater]
  | .greaterEqual => [.less, .not]
  | .less => [.less]
  | .lessEqual => [.greater, .not]
  | .add => [.add]
  | .subtract => [.subtract]
  | .multiply => [.multiply]
  | .divide => [.divide]

/-- Access to a variable: by slot when it is local, by name otherwise. -/
def access (pool : List Value) (scope : Scope) (onLocal onGlobal : Opcode) (x : String) : Item :=
  match scope.slot? x with
  | some slot => .operand onLocal slot
  | none => .operand onGlobal (indexIn pool (.string x))

def Expr.code (pool : List Value) (scope : Scope) : Expr → List Item
  | .nil => [.plain .pushNil]
  | .bool true => [.plain .pushTrue]
  | .bool false => [.plain .pushFalse]
  | .number literal => [.operand .constant (indexIn pool (numberValue literal))]
  | .string s => [.operand .constant (indexIn pool (.string s))]
  | .name x => [access pool scope .getLocal .getGlobal x]
  | .assign x value => value.code pool scope ++ [access pool scope .setLocal .setGlobal x]
  | .unary op operand => operand.code pool scope ++ [.plain op.opcode]
  | .binary op left right =>
      left.code pool scope ++ (right.code pool scope ++ op.opcodes.map .plain)
  | .and left right =>
      let skipped := .plain .pop :: right.code pool scope
      left.code pool scope ++ (.jump .jumpIfFalse (codeSize skipped) :: skipped)
  | .or left right =>
      let skipped := .plain .pop :: right.code pool scope
      left.code pool scope ++
        (.jump .jumpIfFalse 3 :: .jump .jump (codeSize skipped) :: skipped)
  | .group inner => inner.code pool scope

/-- Pops for the locals that `inner` has beyond `outer`. -/
def leave (outer inner : Scope) : List Item :=
  List.replicate (inner.length - outer.length) (.plain .pop)

/-- The condition of a loop and what leaves the loop when it fails; `rest` is the code
up to and including the jump back. -/
def loopCode (condition : Option (List Item)) (rest : List Item) : List Item :=
  match condition with
  | none => rest
  | some code =>
      code ++ (.jump .jumpIfFalse (1 + codeSize rest) :: .plain .pop :: rest) ++ [.plain .pop]

/-- The size of a loop's condition with the jump that leaves the loop. -/
def conditionSize (condition : Option (List Item)) : Nat :=
  match condition with
  | none => 0
  | some code => codeSize code + 4

/-- The increment and the body of a `for`. The body jumps back to the increment, which
stands before it, and the increment to the condition. -/
def stepCode (before : Nat) (increment : Option (List Item)) (body : List Item) : List Item :=
  match increment with
  | none => body ++ [.jump .loop (before + codeSize body + 3)]
  | some code =>
      let back := code ++ [.plain .pop, .jump .loop (before + 3 + codeSize code + 4)]
      .jump .jump (codeSize back) :: back ++
        (body ++ [.jump .loop (codeSize back + codeSize body + 3)])

def Stmt.code (pool : List Value) (top : Bool) (scope : Scope) : Stmt → List Item
  | .skip => []
  | .seq first rest =>
      first.code pool top scope ++ rest.code pool top (first.scopeAfter top scope)
  | .var x value =>
      (value.getD .nil).code pool scope ++
        (if top then [.operand .defineGlobal (indexIn pool (.string x))] else [])
  | .print e => e.code pool scope ++ [.plain .print]
  | .expression e => e.code pool scope ++ [.plain .pop]
  | .block body => body.code pool false scope ++ leave scope (body.scopeAfter false scope)
  | .branch condition yes no =>
      let onFalse := .plain .pop :: no.code pool top scope
      let onTrue := .plain .pop :: yes.code pool top scope ++ [.jump .jump (codeSize onFalse)]
      condition.code pool scope ++ (.jump .jumpIfFalse (codeSize onTrue) :: onTrue ++ onFalse)
  | .whileLoop condition body =>
      let test := some (condition.code pool scope)
      loopCode test (stepCode (conditionSize test) none (body.code pool top scope))
  | .forLoop first condition increment body =>
      let inner := first.scopeAfter false scope
      let test := condition.map (Expr.code pool inner)
      first.code pool false scope ++
        loopCode test (stepCode (conditionSize test) (increment.map (Expr.code pool inner))
          (body.code pool false inner)) ++
        leave scope inner

/-- The bytes of a whole program. -/
def Stmt.program (body : Stmt) : List UInt8 :=
  bytesOf (body.code body.pool true [] ++ [.plain .ret])

end StackScript.Tree
