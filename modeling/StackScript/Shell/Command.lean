import StackScript.Shell.Exchange

/-!
A whole command as a function of what it is asked for, of what comes of reading a file,
and of its standard input. With a script it runs that; without one it prompts for lines,
each of them a program of one session. What is asked for are at most one script and at
most one request for the listing, in any order. Behind two dashes everything is a script,
and so is one dash.
-/

namespace StackScript.Shell

structure Invocation where
  script : Option String := none
  listing : Bool := false
  deriving DecidableEq, Repr

namespace Invocation

/-- Takes a path as the script; there can be only one, and it is never empty. -/
def withScript (i : Invocation) (path : String) : Option Invocation :=
  if path = "" || i.script.isSome then none else some { i with script := some path }

/-- Whether an argument is an option rather than a path. -/
def isOption (argument : String) : Bool :=
  argument.toList.head? = some '-' && argument != "-"

/-- Reads the arguments behind those already read. -/
def read (pathsOnly : Bool) (i : Invocation) : List String → Option Invocation
  | [] => some i
  | argument :: rest =>
      if pathsOnly || !isOption argument then do
        let i ← i.withScript argument
        read pathsOnly i rest
      else if argument = "--" then read true i rest
      else if argument = "--disassemble" && !i.listing then
        read false { i with listing := true } rest
      else none

def parse? (arguments : List String) : Option Invocation :=
  read false {} arguments

end Invocation

/-- Why a script cannot be read. -/
inductive ReadFailure where
  | missing
  | isDirectory
  | notDirectory
  | nameTooLong
  | notText
  | other (reason : String)
  deriving DecidableEq, Repr

def ReadFailure.message : ReadFailure → String
  | .missing => "No such file or directory (os error 2)"
  | .isDirectory => "Is a directory (os error 21)"
  | .notDirectory => "Not a directory (os error 20)"
  | .nameTooLong => "File name too long (os error 36)"
  | .notText => "stream did not contain valid UTF-8"
  | .other reason => reason

/-- What is left of a command: the exit code and both streams. -/
structure Exit where
  code : Nat
  out : Array UInt8 := #[]
  err : String := ""

def prompt : String := "> "

/-- The message about input that is no text. -/
def inputNotText : String := "stdin: stream did not contain valid UTF-8\n"

def cannotRead (path : String) (failure : ReadFailure) : String :=
  "Could not read file \"" ++ path ++ "\": " ++ failure.message ++ "\n"

/-- Reads bytes as text. -/
def decode (bytes : Array UInt8) : Option String :=
  String.fromUTF8? ⟨bytes⟩

/-- Splits bytes into lines that keep their newline; the last one may lack it. -/
def splitLines : List UInt8 → Array UInt8 → Array (Array UInt8) → Array (Array UInt8)
  | [], line, lines => if line.isEmpty then lines else lines.push line
  | byte :: rest, line, lines =>
      if byte = 10 then splitLines rest #[] (lines.push (line.push byte))
      else splitLines rest (line.push byte) lines

def linesOf (bytes : Array UInt8) : List (Array UInt8) :=
  (splitLines bytes.toList #[] #[]).toList

/-- Answers line after line on one machine, until the input ends or is no text. -/
def converse (fuel : Nat) (listing : Bool) : List (Array UInt8) → Machine → Exit → Option Exit
  | [], _, e => some { e with out := e.out ++ (prompt ++ "\n").toUTF8.data }
  | line :: rest, m, e =>
      let e := { e with out := e.out ++ prompt.toUTF8.data }
      match decode line with
      | none => some { e with err := e.err ++ inputNotText }
      | some source => do
          let (m, x) ← exchange fuel listing source m
          converse fuel listing rest m { e with out := e.out ++ x.out, err := e.err ++ x.err }

/-- Runs a script that has been read, or could not be. -/
def runScript (fuel : Nat) (listing : Bool) (path : String)
    (read : Except ReadFailure (Array UInt8)) : Option Exit :=
  match read with
  | .error failure => some { code := 74, err := cannotRead path failure }
  | .ok bytes =>
      match decode bytes with
      | none => some { code := 74, err := cannotRead path .notText }
      | some source => do
          let (_, x) ← exchange fuel listing source {}
          return ⟨exitCode x.failure, x.out, x.err⟩

/-- The command; `read` gives the bytes of a file, and `input` is all of standard input. -/
def command (fuel : Nat) (asked : Invocation) (read : String → Except ReadFailure (Array UInt8))
    (input : Array UInt8) : Option Exit :=
  match asked.script with
  | some path => runScript fuel asked.listing path (read path)
  | none => converse fuel asked.listing (linesOf input) {} { code := 0 }

end StackScript.Shell
