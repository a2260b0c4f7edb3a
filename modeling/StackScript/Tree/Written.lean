import StackScript.Tree
import StackScript.Token

/-!
Expressions as text, in two ways: with the parentheses that the strength of operators
makes necessary, and with parentheses around every part. Comparison and arithmetic
group to the left; `and`, `or` and assignment group to the right.
-/

namespace StackScript.Tree

def UnaryOp.lexeme : UnaryOp → String
  | .negate => "-"
  | .not => "!"

def BinaryOp.lexeme : BinaryOp → String
  | .equal => "=="
  | .notEqual => "!="
  | .greater => ">"
  | .greaterEqual => ">="
  | .less => "<"
  | .lessEqual => "<="
  | .add => "+"
  | .subtract => "-"
  | .multiply => "*"
  | .divide => "/"

def BinaryOp.precedence : BinaryOp → Precedence
  | .equal | .notEqual => .equality
  | .greater | .greaterEqual | .less | .lessEqual => .comparison
  | .add | .subtract => .term
  | .multiply | .divide => .factor

/-- The rank of expressions that nothing can pull apart. -/
def primaryRank : Nat := Precedence.unary.rank + 1

/-- How tightly the parts of an expression hold together. -/
def Expr.rank : Expr → Nat
  | .assign _ _ => Precedence.assignment.rank
  | .or _ _ => Precedence.or.rank
  | .and _ _ => Precedence.and.rank
  | .binary op _ _ => op.precedence.rank
  | .unary _ _ => Precedence.unary.rank
  | _ => primaryRank

def enclosed (lexemes : List String) : List String :=
  "(" :: lexemes ++ [")"]

/-- The lexemes of an expression at a place that takes operators of rank `least` and
above; a looser expression is put in parentheses. -/
def Expr.lexemes (least : Nat) (e : Expr) : List String :=
  let bare := match e with
    | .nil => ["nil"]
    | .bool true => ["true"]
    | .bool false => ["false"]
    | .number literal => [literal]
    | .string s => ["\"" ++ s ++ "\""]
    | .name x => [x]
    | .assign x value => x :: "=" :: value.lexemes Precedence.assignment.rank
    | .unary op operand => op.lexeme :: operand.lexemes Precedence.unary.rank
    | .binary op left right =>
        left.lexemes op.precedence.rank ++ op.lexeme :: right.lexemes (op.precedence.rank + 1)
    | .and left right =>
        left.lexemes (Precedence.and.rank + 1) ++ "and" :: right.lexemes Precedence.and.rank
    | .or left right =>
        left.lexemes (Precedence.or.rank + 1) ++ "or" :: right.lexemes Precedence.or.rank
    | .group inner => enclosed (inner.lexemes Precedence.assignment.rank)
  if e.rank < least then enclosed bare else bare

/-- The lexemes of an expression with parentheses around it and around all its parts;
the target of an assignment is no expression. -/
def Expr.fullLexemes : Expr → List String
  | .nil => enclosed ["nil"]
  | .bool true => enclosed ["true"]
  | .bool false => enclosed ["false"]
  | .number literal => enclosed [literal]
  | .string s => enclosed ["\"" ++ s ++ "\""]
  | .name x => enclosed [x]
  | .assign x value => enclosed (x :: "=" :: value.fullLexemes)
  | .unary op operand => enclosed (op.lexeme :: operand.fullLexemes)
  | .binary op left right => enclosed (left.fullLexemes ++ op.lexeme :: right.fullLexemes)
  | .and left right => enclosed (left.fullLexemes ++ "and" :: right.fullLexemes)
  | .or left right => enclosed (left.fullLexemes ++ "or" :: right.fullLexemes)
  | .group inner => enclosed inner.fullLexemes

/-- The text with no more parentheses than needed. -/
def Expr.text (e : Expr) : String :=
  " ".intercalate (e.lexemes Precedence.assignment.rank)

/-- The text with parentheses everywhere. -/
def Expr.fullText (e : Expr) : String :=
  " ".intercalate e.fullLexemes

end StackScript.Tree
