import StackScript.Tree

/-!
A `for` as a block with a `while` in it, and the places in a program where one statement may be
put instead of another one.
-/

namespace StackScript.Tree

/-- Declarations and statements one after the other. -/
def chain (statements : List Stmt) : Stmt :=
  statements.foldr .seq .skip

/-- The first clause of a `for` as a statement of its own, unless it is absent. -/
def opening (first : Stmt) : List Stmt :=
  if first = .skip then [] else [first]

/-- What `for (first; condition; increment) body` stands for, that is
`{ first while (condition) { body increment; } }`. -/
def desugared (first : Stmt) (condition : Expr) (increment : Option Expr) (body : Stmt) : Stmt :=
  let round := chain (body :: increment.toList.map .expression)
  .block (chain (opening first ++ [.whileLoop condition (.block round)]))

/-- A program with one statement left open. -/
inductive Context where
  | here
  | seqFirst (inside : Context) (rest : Stmt)
  | seqRest (first : Stmt) (inside : Context)
  | block (inside : Context)
  | branchYes (condition : Expr) (inside : Context) (no : Stmt)
  | branchNo (condition : Expr) (yes : Stmt) (inside : Context)
  | whileBody (condition : Expr) (inside : Context)
  | forBody (first : Stmt) (condition increment : Option Expr) (inside : Context)
  deriving DecidableEq, Repr

/-- The program with a statement put where one is left open. -/
def Context.fill (s : Stmt) : Context → Stmt
  | .here => s
  | .seqFirst inside rest => .seq (inside.fill s) rest
  | .seqRest first inside => .seq first (inside.fill s)
  | .block inside => .block (inside.fill s)
  | .branchYes condition inside no => .branch condition (inside.fill s) no
  | .branchNo condition yes inside => .branch condition yes (inside.fill s)
  | .whileBody condition inside => .whileLoop condition (inside.fill s)
  | .forBody first condition increment inside => .forLoop first condition increment (inside.fill s)

end StackScript.Tree
