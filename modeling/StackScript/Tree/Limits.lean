import StackScript.Tree.Code
import StackScript.Builder.Scope

/-!
What a grammatical program has to keep to: how locals may be declared and read, and how
large its parts may be. Everything here is a test on the tree.
-/

namespace StackScript.Tree

/-- Whether a name is read or assigned to. -/
def Expr.mentions (x : String) : Expr → Bool
  | .nil | .bool _ | .number _ | .string _ => false
  | .name y => x = y
  | .assign y value => x = y || value.mentions x
  | .unary _ operand => operand.mentions x
  | .binary _ left right | .and left right | .or left right =>
      left.mentions x || right.mentions x
  | .group inner => inner.mentions x

/-- The names that the innermost scope declares up to the end of the statement, given
those `here` before it. -/
def Stmt.declared (here : List String) : Stmt → List String
  | .var x _ => x :: here
  | .seq first rest => rest.declared (first.declared here)
  | _ => here

/-- No local is declared twice in one scope, nor mentioned in its own initializer. -/
def Stmt.wellScoped (top : Bool) (here : List String) : Stmt → Bool
  | .skip | .print _ | .expression _ => true
  | .seq first rest =>
      first.wellScoped top here && rest.wellScoped top (first.declared here)
  | .var x value => top || !here.contains x && !value.any (Expr.mentions x)
  | .block body => body.wellScoped false []
  | .branch _ yes no => yes.wellScoped top here && no.wellScoped top here
  | .whileLoop _ body => body.wellScoped top here
  | .forLoop first _ _ body =>
      first.wellScoped false [] && body.wellScoped false (first.declared [])

/-- How many locals can be in scope at once, one that is being initialized included. -/
def Stmt.mostLocals (top : Bool) (count : Nat) : Stmt → Nat
  | .skip | .print _ | .expression _ => count
  | .seq first rest =>
      max (first.mostLocals top count)
        (rest.mostLocals top (count + (if top then 0 else (first.declared []).length)))
  | .var _ _ => if top then count else count + 1
  | .block body => body.mostLocals false count
  | .branch _ yes no => max (yes.mostLocals top count) (no.mostLocals top count)
  | .whileLoop _ body => body.mostLocals top count
  | .forLoop first _ _ body =>
      max (first.mostLocals false count)
        (body.mostLocals false (count + (first.declared []).length))

/-- Levels open at once while an expression is read. The left operand of an operator
is read on the level of the whole, everything else inside it on one of its own. -/
def Expr.levels : Expr → Nat
  | .nil | .bool _ | .number _ | .string _ | .name _ => 1
  | .assign _ inner | .unary _ inner | .group inner => inner.levels + 1
  | .binary _ left right | .and left right | .or left right => max left.levels (right.levels + 1)

def optionalLevels (e : Option Expr) : Nat :=
  (e.map Expr.levels).getD 0

/-- Levels of the first clause of a `for`, which opens none as a statement. -/
def Stmt.clauseLevels : Stmt → Nat
  | .var _ value => optionalLevels value
  | .expression e => e.levels
  | _ => 0

/-- Levels open at once while a statement is read. -/
def Stmt.levels : Stmt → Nat
  | .skip => 0
  | .seq first rest => max first.levels rest.levels
  | .var _ value => optionalLevels value
  | .print e | .expression e => e.levels + 1
  | .block body => body.levels + 1
  | .branch condition yes no => max condition.levels (max yes.levels no.levels) + 1
  | .whileLoop condition body => max condition.levels body.levels + 1
  | .forLoop first condition increment body =>
      max (max first.clauseLevels (optionalLevels condition))
        (max (optionalLevels increment) body.levels) + 1

/-- Whether an instruction's operand holds its distance. -/
def Item.fits : Item → Bool
  | .jump _ distance => distance ≤ Builder.distanceMax
  | _ => true

/-- Whether a grammatical program can be compiled. -/
def Stmt.admissible (program : Stmt) : Bool :=
  program.wellScoped true [] && program.mostLocals true 0 ≤ Builder.localsMax &&
    program.levels ≤ Builder.nestingMax && program.pool.length ≤ Chunk.constantsMax &&
    (program.code program.pool true []).all Item.fits

end StackScript.Tree
