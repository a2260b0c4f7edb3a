import StackScript.Builder.Statement
import StackScript.Machine.Run

/-!
Sessions: programs run one after another on the same machine. Globals and the sink
carry over, the stack is emptied after every program, and an error ends only the
program that raised it.
-/

namespace StackScript

/-- Why a program did not finish. -/
inductive Failure where
  | compile (errors : Array Diagnostic)
  | runtime (e : RuntimeError)
  | output
  | outOfRange

def Failure.message : Failure → String
  | .compile errors => "\n".intercalate (errors.toList.map Diagnostic.message)
  | .runtime e => e.message
  | .output => "io error: closed"
  | .outOfRange => "access out of range"

/-- The fault that ended a run, if it was one. -/
def Failure.fault? : Failure → Option Fault
  | .runtime e => some e.fault
  | _ => none

def Outcome.failure? : Outcome → Option Failure
  | .finished => none
  | .failed e => some (.runtime e)
  | .outputClosed => some .output
  | .outOfRange => some .outOfRange

/-- The log record for an outcome; only a runtime error has one. -/
def Outcome.records : Outcome → Array Record
  | .failed e =>
      #[.debug ("runtime error at line " ++ e.line.repr ++ ": " ++ e.fault.message)]
  | _ => #[]

inductive Program where
  | source (text : String)
  | chunk (c : Chunk)

/-- What came of one program. -/
structure Reply where
  failure : Option Failure
  output : Array UInt8
  log : Array Record

/-- The records of a compilation: every diagnostic, or the listing of the chunk. -/
def compileRecords : Except (Array Diagnostic) Chunk → Array Record
  | .error errors => errors.map fun d => .debug d.message
  | .ok c => #[.debug ("compiled chunk:\n" ++ c.listing "script")]

namespace Machine

/-- Ends a run that has an outcome. -/
def settle (r : Run) (outcome : Outcome) : Machine × Option Failure × Array Record :=
  ({ r.machine with stack := r.machine.stack.reset }, outcome.failure?, r.log ++ outcome.records)

/-- Runs a chunk to its end and empties the stack. There is no result when more than
`fuel` instructions are needed. -/
def runChunk (fuel : Nat) (tracing : Bool) (c : Chunk) (m : Machine) :
    Option (Machine × Option Failure × Array Record) :=
  let r := (Run.start c tracing m).advance fuel
  r.outcome.map (settle r)

/-- Compiles a text and runs it. A text that does not compile leaves the machine as
it is. -/
def interpret (fuel : Nat) (tracing : Bool) (source : String) (m : Machine) :
    Option (Machine × Option Failure × Array Record) :=
  let compiled := compile source
  let records := if tracing then compileRecords compiled else #[]
  match compiled with
  | .error errors => some (m, some (.compile errors), records)
  | .ok c => do
      let (m, failure, log) ← m.runChunk fuel tracing c
      return (m, failure, records ++ log)

/-- One program of a session, with the bytes that it wrote. -/
def perform (fuel : Nat) (tracing : Bool) (p : Program) (m : Machine) :
    Option (Machine × Reply) := do
  let before := m.sink.written.size
  let (m, failure, log) ← match p with
    | .source text => m.interpret fuel tracing text
    | .chunk c => m.runChunk fuel tracing c
  return (m, ⟨failure, m.sink.written.extract before m.sink.written.size, log⟩)

end Machine

end StackScript
