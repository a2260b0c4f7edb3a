import StackScript.Session

/-!
What a command prints for one text: the listing if it is asked for and the text
compiles, then the program's output, then the error if there is one.
-/

namespace StackScript.Shell

/-- The result of one text: how it failed, what goes to standard output and what to
standard error. -/
structure Exchange where
  failure : Option Failure
  out : Array UInt8
  err : String

/-- The line that reports a failure. -/
def failureLine : Option Failure → String
  | some f => f.message ++ "\n"
  | none => ""

/-- Compiles a text and runs it on the machine. If the listing is asked for, it is shown in
between. -/
def exchange (fuel : Nat) (listing : Bool) (source : String) (m : Machine) :
    Option (Machine × Exchange) :=
  match compile source with
  | .error errors =>
      let failure := some (.compile errors)
      some (m, ⟨failure, #[], failureLine failure⟩)
  | .ok c => do
      let before := m.sink.written.size
      let shown := if listing then c.listing "script" else ""
      let (m, failure, _) ← m.runChunk fuel false c
      let out := m.sink.written.extract before m.sink.written.size
      return (m, ⟨failure, out, shown ++ failureLine failure⟩)

/-- The exit code for a script: data, software or output error. -/
def exitCode : Option Failure → Nat
  | none => 0
  | some (.compile _) => 65
  | some (.runtime _) => 70
  | some .output => 74
  | some .outOfRange => 101

end StackScript.Shell
