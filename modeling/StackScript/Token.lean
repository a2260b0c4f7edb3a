/-!
Tokens: what the scanner cuts a source text into. A token knows its kind, the byte
offset at which it starts, its own text, and the line on which it ends. Text that
belongs to no token of the language becomes a token too, of kind `fault`. The strength
with which the operators among them bind is a linear order.
-/

namespace StackScript

/-- Why a piece of text is no token of the language. -/
inductive LexicalFault where
  | unterminatedString
  | unexpectedCharacter (c : Char)
  deriving DecidableEq, Repr

inductive TokenKind where
  | leftParen
  | rightParen
  | leftBrace
  | rightBrace
  | comma
  | dot
  | minus
  | plus
  | semicolon
  | slash
  | star
  | bang
  | bangEqual
  | assign
  | equalEqual
  | greater
  | greaterEqual
  | less
  | lessEqual
  | identifier
  | string
  | number
  | andWord
  | classWord
  | elseWord
  | falseWord
  | forWord
  | funWord
  | ifWord
  | nilWord
  | orWord
  | printWord
  | returnWord
  | superWord
  | thisWord
  | trueWord
  | varWord
  | whileWord
  | fault (reason : LexicalFault)
  | endOfFile
  deriving DecidableEq, Repr

/-- The kind of a word: one of the sixteen reserved words, or an identifier. -/
def TokenKind.ofWord (word : String) : TokenKind :=
  match word with
  | "and" => .andWord
  | "class" => .classWord
  | "else" => .elseWord
  | "false" => .falseWord
  | "for" => .forWord
  | "fun" => .funWord
  | "if" => .ifWord
  | "nil" => .nilWord
  | "or" => .orWord
  | "print" => .printWord
  | "return" => .returnWord
  | "super" => .superWord
  | "this" => .thisWord
  | "true" => .trueWord
  | "var" => .varWord
  | "while" => .whileWord
  | _ => .identifier

structure Token where
  kind : TokenKind
  start : Nat
  lexeme : String
  line : Nat
  deriving DecidableEq, Repr

namespace Token

/-- The length in bytes. It is taken to be below `2 ^ 32`, so that 32 bits hold it. -/
def size (t : Token) : Nat := t.lexeme.utf8ByteSize

/-- Stands before the first token of a text. -/
def origin : Token := ⟨.endOfFile, 0, "", 1⟩

end Token

/-- How tightly operators bind. The order of the constructors is the order of strength. -/
inductive Precedence where
  | assignment
  | or
  | and
  | equality
  | comparison
  | term
  | factor
  | unary
  deriving DecidableEq, Repr

namespace Precedence

/-- The place in the order; looser operators come first. -/
def rank (p : Precedence) : Nat := p.ctorIdx

/-- Whether operators of strength `q` belong to an operand of strength `p`. -/
def admits (p q : Precedence) : Bool :=
  p.rank ≤ q.rank

end Precedence

end StackScript
