import StackScript.Chunk
import StackScript.Diagnostic

/-!
The state of one compilation: the tokens still to be read, the diagnostics so far, the
chunk under construction and the local variables in scope. Reading is one token ahead,
and after a diagnostic all others are held back until the reader has recovered.
-/

namespace StackScript

/-- A local variable. It has no depth while its own initializer is being compiled. -/
structure Local where
  name : String
  depth : Option Nat
  deriving DecidableEq, Repr

structure Builder where
  unread : List Token
  current : Token := .origin
  previous : Token := .origin
  /-- Set by a diagnostic; holds back further ones until the reader has recovered. -/
  panicking : Bool := false
  errors : Array Diagnostic := #[]
  chunk : Chunk := {}
  /-- The innermost variable comes first; slots are counted from the other end. -/
  locals : List Local := []
  scopeDepth : Nat := 0
  /-- Statements and expressions that are open. -/
  nesting : Nat := 0

namespace Builder

/-- How many statements and expressions may be open at once. -/
def nestingMax : Nat := 256

/-- Records a diagnostic at `token`, unless one is already being recovered from. -/
def report (b : Builder) (token : Token) (cause : Diagnostic.Cause) : Builder :=
  if b.panicking then b
  else
    { b with panicking := true, errors := b.errors.push ⟨cause, token.line, token.location⟩ }

def errorAtPrevious (b : Builder) (cause : Diagnostic.Cause) : Builder :=
  b.report b.previous cause

def errorAtCurrent (b : Builder) (cause : Diagnostic.Cause) : Builder :=
  b.report b.current cause

/-- Makes the first token that is no fault current; each fault before it is reported.
At the end of the text the end marker stays. -/
def load : List Token → Builder → Builder
  | [], b => { b with unread := [] }
  | token :: unread, b =>
      match token.kind with
      | .fault reason => load unread (b.report token (.lexical reason))
      | _ => { b with current := token, unread := unread }

/-- Moves on by one token. -/
def advance (b : Builder) : Builder :=
  load b.unread { b with previous := b.current }

/-- Whether the current token is of this kind. -/
def sees (b : Builder) (kind : TokenKind) : Bool :=
  b.current.kind = kind

/-- Moves past a token that has to be there; another one is reported and kept. -/
def expect (b : Builder) (kind : TokenKind) (what : Expectation) : Builder :=
  if b.sees kind then b.advance else b.errorAtCurrent (.expect what)

/-- Runs `body` one level deeper. At the limit the current token is skipped and
reported instead, so that reading still moves on. -/
def nested (body : Builder → Builder) (b : Builder) : Builder :=
  if b.nesting = nestingMax then b.advance.errorAtPrevious .tooDeeplyNested
  else
    let b := body { b with nesting := b.nesting + 1 }
    { b with nesting := b.nesting - 1 }

/-- Repeats `body` while `more` holds, at most once for each token of `bound`. Every
repetition here reads a token, so the unread tokens are bound enough. -/
def repeatWhile (more : Builder → Bool) (body : Builder → Builder) :
    List Token → Builder → Builder
  | [], b => b
  | _ :: bound, b => if more b then repeatWhile more body bound (body b) else b

/-- Words that start a statement or declaration, where reading can resume. -/
def startsStatement : TokenKind → Bool
  | .classWord | .funWord | .varWord | .forWord | .ifWord | .whileWord | .printWord
  | .returnWord => true
  | _ => false

/-- Leaves panic and skips to the next likely start of a statement. -/
def synchronize (b : Builder) : Builder :=
  repeatWhile
    (fun b => !b.sees .endOfFile && b.previous.kind != .semicolon &&
      !startsStatement b.current.kind)
    advance b.unread { b with panicking := false }

end Builder

end StackScript
