import StackScript.Value

/-!
Programs as trees, apart from how they are written and from the code they become.
Literals, names and strings are kept as the source has them. A block's contents are a
chain of `seq` that ends in `skip`; `skip` also stands for an absent `else` and an
absent first clause of a `for`.
-/

namespace StackScript.Tree

inductive UnaryOp where
  | negate
  | not
  deriving DecidableEq, Repr

inductive BinaryOp where
  | equal
  | notEqual
  | greater
  | greaterEqual
  | less
  | lessEqual
  | add
  | subtract
  | multiply
  | divide
  deriving DecidableEq, Repr

inductive Expr where
  | nil
  | bool (b : Bool)
  | number (literal : String)
  | string (s : String)
  | name (x : String)
  | assign (x : String) (value : Expr)
  | unary (op : UnaryOp) (operand : Expr)
  | binary (op : BinaryOp) (left right : Expr)
  | and (left right : Expr)
  | or (left right : Expr)
  | group (inner : Expr)
  deriving DecidableEq, Repr

inductive Stmt where
  | skip
  | seq (first rest : Stmt)
  | var (x : String) (value : Option Expr)
  | print (e : Expr)
  | expression (e : Expr)
  | block (body : Stmt)
  | branch (condition : Expr) (yes no : Stmt)
  | whileLoop (condition : Expr) (body : Stmt)
  | forLoop (first : Stmt) (condition increment : Option Expr) (body : Stmt)
  deriving DecidableEq, Repr

/-- The number that a literal stands for; zero for text that is no literal. -/
def numberValue (literal : String) : Value :=
  .number ((Number.parse? literal).getD ⟨0⟩)

end StackScript.Tree
