import StackScript.Shell.Directory

/-!
The command line: reads a script or prompts for lines, and shows output while a program
runs. Everything that is decided is decided by the modules below; here bytes are only
read and written.
-/

namespace StackScript.Shell

/-- How many instructions run between two looks at the output. -/
def slice : Nat := 100000

/-- Shows what has been printed and forgets it. -/
def flushOutput (m : Machine) : IO Machine := do
  let out ← IO.getStdout
  out.write ⟨m.sink.written⟩
  out.flush
  return { m with sink := {} }

/-- Runs to the end, slice by slice. -/
partial def runToEnd (r : Run) : IO (Machine × Option Failure) := do
  let r := r.advance slice
  let m ← flushOutput r.machine
  match r.outcome with
  | none => runToEnd { r with machine := m }
  | some outcome =>
      let (m, failure, _) := Machine.settle { r with machine := m } outcome
      return (m, failure)

/-- Runs one text and reports how it failed. -/
def runText (listing : Bool) (source : String) (m : Machine) : IO (Machine × Option Failure) := do
  let err ← IO.getStderr
  let (m, failure) ← match compile source with
    | .error errors => pure (m, some (.compile errors))
    | .ok c => do
        if listing then err.putStr (c.listing "script")
        runToEnd (Run.start c false m)
  err.putStr (failureLine failure)
  return (m, failure)

/-- The next line of standard input with its newline; empty at the end. -/
partial def readLine (input : IO.FS.Stream) (line : Array UInt8) : IO (Array UInt8) := do
  let bytes ← input.read 1
  match bytes.data[0]? with
  | none => return line
  | some byte => if byte = 10 then return line.push byte else readLine input (line.push byte)

partial def converseWith (listing : Bool) (m : Machine) : IO Unit := do
  let out ← IO.getStdout
  out.putStr prompt
  out.flush
  let line ← readLine (← IO.getStdin) #[]
  if line.isEmpty then out.putStr "\n"
  else
    match decode line with
    | none => (← IO.getStderr).putStr inputNotText
    | some source =>
        let (m, _) ← runText listing source m
        converseWith listing m

/-- Reads a file and tells apart why it cannot be read. -/
def readScript (path : String) : IO (Except ReadFailure (Array UInt8)) := do
  try
    let bytes ← IO.FS.readBinFile path
    return .ok bytes.data
  catch e =>
    match e with
    | .noFileOrDirectory .. => return .error .missing
    | .inappropriateType _ code _ =>
        return .error (if code = 21 then .isDirectory else .notDirectory)
    | .invalidArgument _ 36 _ => return .error .nameTooLong
    | _ => return .error (.other (toString e))

def reportUnreadable (path : String) (failure : ReadFailure) : IO UInt32 := do
  (← IO.getStderr).putStr (cannotRead path failure)
  return 74

def runFile (listing : Bool) (path : String) : IO UInt32 := do
  match ← readScript path with
  | .error failure => reportUnreadable path failure
  | .ok bytes =>
      match decode bytes with
      | none => reportUnreadable path .notText
      | some source =>
          let (_, failure) ← runText listing source {}
          return UInt32.ofNat (exitCode failure)

end StackScript.Shell

open StackScript.Shell in
def main (arguments : List String) : IO UInt32 := do
  match Invocation.parse? arguments with
  | none =>
      (← IO.getStderr).putStr usageError.err
      return UInt32.ofNat usageError.code
  | some ⟨some path, listing⟩ => runFile listing path
  | some ⟨none, listing⟩ =>
      converseWith listing {}
      return 0
