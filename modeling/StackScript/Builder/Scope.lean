import StackScript.Builder.Emit

/-!
Scopes and variables. A variable declared inside a scope is local: its place in the
list of locals is its stack slot. At the top level a variable is global and known by
its name.
-/

namespace StackScript.Builder

/-- How many locals can be in scope; slots are one byte. -/
def localsMax : Nat := 256

def beginScope (b : Builder) : Builder :=
  { b with scopeDepth := b.scopeDepth + 1 }

/-- Whether a local goes out of scope when only scopes up to `depth` remain. -/
def leavesAt (depth : Nat) (entry : Local) : Bool :=
  entry.depth.all (depth < ·)

/-- Drops the locals that leave, innermost first, with code that pops each of them. -/
def dropLocals : List Local → Builder → Builder
  | [], b => { b with locals := [] }
  | entry :: rest, b =>
      if leavesAt b.scopeDepth entry then dropLocals rest (b.emit .pop)
      else { b with locals := entry :: rest }

def endScope (b : Builder) : Builder :=
  dropLocals b.locals { b with scopeDepth := b.scopeDepth - 1 }

/-- The constant that holds a global variable's name. -/
def nameConstant (b : Builder) (name : String) : Builder × UInt8 :=
  b.makeConstant (.string name)

/-- The slot of the innermost local of this name. Reading it inside its own
initializer is reported. -/
def resolveLocal (b : Builder) (name : String) : Builder × Option UInt8 :=
  match b.locals.findIdx? (·.name = name) with
  | none => (b, none)
  | some i =>
      let slot := UInt8.ofNat (b.locals.length - 1 - i)
      match b.locals[i]? with
      | some ⟨_, none⟩ => (b.errorAtPrevious .readInOwnInitializer, some slot)
      | _ => (b, some slot)

def addLocal (b : Builder) (name : String) : Builder :=
  if b.locals.length = localsMax then b.errorAtPrevious .tooManyLocals
  else { b with locals := ⟨name, none⟩ :: b.locals }

/-- Whether the innermost scope already has a local of this name. -/
def declaredHere (b : Builder) (name : String) : Bool :=
  (b.locals.takeWhile fun entry => entry.depth.all (b.scopeDepth ≤ ·)).any (·.name = name)

/-- Declares the token read last as a local; at the top level nothing is declared. -/
def declareVariable (b : Builder) : Builder :=
  if b.scopeDepth = 0 then b
  else
    let name := b.previous.lexeme
    let b := if b.declaredHere name then b.errorAtPrevious .alreadyDeclared else b
    b.addLocal name

/-- Reads a variable's name and declares it. Gives the constant of its name for a
global, and zero for a local. -/
def readVariable (b : Builder) : Builder × UInt8 :=
  let b := (b.expect .identifier .variableName).declareVariable
  if 0 < b.scopeDepth then (b, 0) else b.nameConstant b.previous.lexeme

/-- From here on the innermost local can be read. -/
def markInitialized (b : Builder) : Builder :=
  match b.locals with
  | [] => b
  | entry :: rest => { b with locals := { entry with depth := some b.scopeDepth } :: rest }

def defineVariable (b : Builder) (name : UInt8) : Builder :=
  if 0 < b.scopeDepth then b.markInitialized else b.emitWithByte .defineGlobal name

end StackScript.Builder
