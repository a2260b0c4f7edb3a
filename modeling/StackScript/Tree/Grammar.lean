import StackScript.Tree.Written
import StackScript.Token

/-!
The grammar: which tokens spell which tree. Expressions are stratified by rank, and an
expression of one rank stands wherever a looser one may. An `else` belongs to the
nearest `if` that can take it.
-/

namespace StackScript.Tree

def UnaryOp.token : UnaryOp → TokenKind
  | .negate => .minus
  | .not => .bang

def BinaryOp.token : BinaryOp → TokenKind
  | .equal => .equalEqual
  | .notEqual => .bangEqual
  | .greater => .greater
  | .greaterEqual => .greaterEqual
  | .less => .less
  | .lessEqual => .lessEqual
  | .add => .plus
  | .subtract => .minus
  | .multiply => .star
  | .divide => .slash

/-- A token of this kind and text. -/
def Spelled (t : Token) (kind : TokenKind) (lexeme : String) : Prop :=
  t.kind = kind ∧ t.lexeme = lexeme

/-- The tokens of an expression of at least the given rank. -/
inductive ExprTokens : Nat → Expr → List Token → Prop
  | nil {t : Token} (h : t.kind = .nilWord) : ExprTokens primaryRank .nil [t]
  | true {t : Token} (h : t.kind = .trueWord) : ExprTokens primaryRank (.bool true) [t]
  | false {t : Token} (h : t.kind = .falseWord) : ExprTokens primaryRank (.bool false) [t]
  | number {t : Token} {literal : String} (h : Spelled t .number literal) :
      ExprTokens primaryRank (.number literal) [t]
  | string {t : Token} {s : String} (h : Spelled t .string ("\"" ++ s ++ "\"")) :
      ExprTokens primaryRank (.string s) [t]
  | name {t : Token} {x : String} (h : Spelled t .identifier x) :
      ExprTokens primaryRank (.name x) [t]
  | group {l r : Token} {e : Expr} {ts : List Token} (hl : l.kind = .leftParen)
      (he : ExprTokens Precedence.assignment.rank e ts) (hr : r.kind = .rightParen) :
      ExprTokens primaryRank (.group e) (l :: ts ++ [r])
  | unary {t : Token} {op : UnaryOp} {e : Expr} {ts : List Token} (h : t.kind = op.token)
      (he : ExprTokens Precedence.unary.rank e ts) :
      ExprTokens Precedence.unary.rank (.unary op e) (t :: ts)
  | binary {t : Token} {op : BinaryOp} {l r : Expr} {ts us : List Token}
      (hl : ExprTokens op.precedence.rank l ts) (h : t.kind = op.token)
      (hr : ExprTokens (op.precedence.rank + 1) r us) :
      ExprTokens op.precedence.rank (.binary op l r) (ts ++ t :: us)
  | and {t : Token} {l r : Expr} {ts us : List Token}
      (hl : ExprTokens (Precedence.and.rank + 1) l ts) (h : t.kind = .andWord)
      (hr : ExprTokens Precedence.and.rank r us) :
      ExprTokens Precedence.and.rank (.and l r) (ts ++ t :: us)
  | or {t : Token} {l r : Expr} {ts us : List Token}
      (hl : ExprTokens (Precedence.or.rank + 1) l ts) (h : t.kind = .orWord)
      (hr : ExprTokens Precedence.or.rank r us) :
      ExprTokens Precedence.or.rank (.or l r) (ts ++ t :: us)
  | assign {t eq : Token} {x : String} {e : Expr} {ts : List Token}
      (h : Spelled t .identifier x) (heq : eq.kind = .assign)
      (he : ExprTokens Precedence.assignment.rank e ts) :
      ExprTokens Precedence.assignment.rank (.assign x e) (t :: eq :: ts)
  | looser {n : Nat} {e : Expr} {ts : List Token} (h : ExprTokens (n + 1) e ts) :
      ExprTokens n e ts

/-- A whole expression. -/
abbrev WholeExpr : Expr → List Token → Prop :=
  ExprTokens Precedence.assignment.rank

/-- An expression that may be absent. -/
inductive OptionalExpr : Option Expr → List Token → Prop
  | none : OptionalExpr none []
  | some {e : Expr} {ts : List Token} (h : WholeExpr e ts) : OptionalExpr (some e) ts

/-- Whether an `else` behind the statement would belong to an `if` inside it. -/
def Stmt.takesElse : Stmt → Bool
  | .branch _ _ .skip => true
  | .branch _ _ no => no.takesElse
  | .whileLoop _ body | .forLoop _ _ _ body => body.takesElse
  | _ => false

/-- The tokens of a variable declaration. -/
inductive VarTokens : Stmt → List Token → Prop
  | bare {v t semi : Token} {x : String} (hv : v.kind = .varWord)
      (h : Spelled t .identifier x) (hsemi : semi.kind = .semicolon) :
      VarTokens (.var x none) [v, t, semi]
  | withValue {v t eq semi : Token} {x : String} {e : Expr} {ts : List Token}
      (hv : v.kind = .varWord) (h : Spelled t .identifier x) (heq : eq.kind = .assign)
      (he : WholeExpr e ts) (hsemi : semi.kind = .semicolon) :
      VarTokens (.var x (some e)) (v :: t :: eq :: ts ++ [semi])

/-- The tokens of the first clause of a `for`, its semicolon included. -/
inductive ForStartTokens : Stmt → List Token → Prop
  | absent {semi : Token} (h : semi.kind = .semicolon) : ForStartTokens .skip [semi]
  | var {s : Stmt} {ts : List Token} (h : VarTokens s ts) : ForStartTokens s ts
  | expression {e : Expr} {ts : List Token} {semi : Token} (h : WholeExpr e ts)
      (hsemi : semi.kind = .semicolon) : ForStartTokens (.expression e) (ts ++ [semi])

mutual

/-- The tokens of a statement, which is no declaration. -/
inductive StmtTokens : Stmt → List Token → Prop
  | print {p semi : Token} {e : Expr} {ts : List Token} (hp : p.kind = .printWord)
      (he : WholeExpr e ts) (hsemi : semi.kind = .semicolon) :
      StmtTokens (.print e) (p :: ts ++ [semi])
  | expression {semi : Token} {e : Expr} {ts : List Token} (he : WholeExpr e ts)
      (hsemi : semi.kind = .semicolon) : StmtTokens (.expression e) (ts ++ [semi])
  | block {l r : Token} {body : Stmt} {ts : List Token} (hl : l.kind = .leftBrace)
      (hbody : DeclTokens body ts) (hr : r.kind = .rightBrace) :
      StmtTokens (.block body) (l :: ts ++ [r])
  | ifOnly {i l r : Token} {condition : Expr} {yes : Stmt} {ts us : List Token}
      (hi : i.kind = .ifWord) (hl : l.kind = .leftParen) (hc : WholeExpr condition ts)
      (hr : r.kind = .rightParen) (hyes : StmtTokens yes us) :
      StmtTokens (.branch condition yes .skip) (i :: l :: ts ++ r :: us)
  | ifElse {i l r e : Token} {condition : Expr} {yes no : Stmt} {ts us vs : List Token}
      (hi : i.kind = .ifWord) (hl : l.kind = .leftParen) (hc : WholeExpr condition ts)
      (hr : r.kind = .rightParen) (hyes : StmtTokens yes us) (hopen : yes.takesElse = false)
      (he : e.kind = .elseWord) (hno : StmtTokens no vs) :
      StmtTokens (.branch condition yes no) (i :: l :: ts ++ r :: us ++ e :: vs)
  | whileLoop {w l r : Token} {condition : Expr} {body : Stmt} {ts us : List Token}
      (hw : w.kind = .whileWord) (hl : l.kind = .leftParen) (hc : WholeExpr condition ts)
      (hr : r.kind = .rightParen) (hbody : StmtTokens body us) :
      StmtTokens (.whileLoop condition body) (w :: l :: ts ++ r :: us)
  | forLoop {f l semi r : Token} {first body : Stmt} {condition increment : Option Expr}
      {ts us vs ws : List Token} (hf : f.kind = .forWord) (hl : l.kind = .leftParen)
      (hfirst : ForStartTokens first ts) (hc : OptionalExpr condition us)
      (hsemi : semi.kind = .semicolon) (hi : OptionalExpr increment vs)
      (hr : r.kind = .rightParen) (hbody : StmtTokens body ws) :
      StmtTokens (.forLoop first condition increment body)
        (f :: l :: ts ++ us ++ semi :: vs ++ r :: ws)

/-- The tokens of a chain of declarations and statements. -/
inductive DeclTokens : Stmt → List Token → Prop
  | skip : DeclTokens .skip []
  | var {first rest : Stmt} {ts us : List Token} (hfirst : VarTokens first ts)
      (hrest : DeclTokens rest us) : DeclTokens (.seq first rest) (ts ++ us)
  | statement {first rest : Stmt} {ts us : List Token} (hfirst : StmtTokens first ts)
      (hrest : DeclTokens rest us) : DeclTokens (.seq first rest) (ts ++ us)

end

/-- The tokens of a whole program, with the marker at its end. -/
def ProgramTokens (body : Stmt) (tokens : List Token) : Prop :=
  ∃ ts, ∃ last : Token, DeclTokens body ts ∧ last.kind = .endOfFile ∧ tokens = ts ++ [last]

end StackScript.Tree
