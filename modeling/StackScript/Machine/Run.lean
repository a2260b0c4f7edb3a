import StackScript.Listing
import StackScript.Machine.Step

/-!
Runs of a chunk. A run goes on until it returns, leaves the code, faults, or cannot
write; it can be advanced by a number of instructions at a time. While it is traced,
every instruction leaves two log records: the stack and the instruction itself.
-/

namespace StackScript

inductive Record where
  | debug (text : String)
  | trace (text : String)
  deriving DecidableEq, Repr

/-- How a run ended. No run ends by an access out of range; the case is there for
accesses to be checked everywhere. -/
inductive Outcome where
  | finished
  | failed (e : RuntimeError)
  | outputClosed
  | outOfRange
  deriving DecidableEq, Repr

def Stop.outcome (line : Nat) : Stop → Outcome
  | .returned => .finished
  | .fault f => .failed ⟨f, line⟩
  | .outputClosed => .outputClosed
  | .outOfRange => .outOfRange

/-- Executes the instruction at `ip` and gives the offset of the next one. A fault is
attributed to the line of the last byte that was read. -/
def Machine.step (c : Chunk) (ip : Nat) : EStateM Outcome Machine Nat := fun m =>
  let fetched := c.fetch ip
  match fetched.result with
  | .error f => .error (.failed ⟨f, c.lineBefore fetched.next⟩) m
  | .ok instruction =>
      match instruction.exec fetched.next m with
      | .ok ip m => .ok ip m
      | .error stop m => .error (stop.outcome (c.lineBefore fetched.next)) m

/-- The records for the instruction at `ip`. -/
def Machine.records? (m : Machine) (c : Chunk) (ip : Nat) : Option (Array Record) := do
  let line ← c.instructionLine? ip
  return #[.trace ("          " ++ m.stack.listing), .trace line]

structure Run where
  chunk : Chunk
  tracing : Bool
  ip : Nat
  machine : Machine
  log : Array Record
  /-- Absent while the run goes on. -/
  outcome : Option Outcome

namespace Run

def start (c : Chunk) (tracing : Bool) (m : Machine) : Run :=
  ⟨c, tracing, 0, m, #[], none⟩

/-- The log with the records for the next instruction, if they are wanted. -/
def traced? (c : Chunk) (tracing : Bool) (ip : Nat) (m : Machine) (log : Array Record) :
    Option (Array Record) :=
  if tracing then (m.records? c ip).map (log ++ ·) else some log

/-- At most `fuel` instructions from `ip` on. -/
def go (c : Chunk) (tracing : Bool) : Nat → Nat → Machine → Array Record → Run
  | 0, ip, m, log => ⟨c, tracing, ip, m, log, none⟩
  | fuel + 1, ip, m, log =>
      if ip < c.size then
        match traced? c tracing ip m log with
        | none => ⟨c, tracing, ip, m, log, some .outOfRange⟩
        | some log =>
            match m.step c ip with
            | .ok ip m => go c tracing fuel ip m log
            | .error outcome m => ⟨c, tracing, ip, m, log, some outcome⟩
      else ⟨c, tracing, ip, m, log, some .finished⟩

/-- Goes on by at most `fuel` instructions. -/
def advance (r : Run) (fuel : Nat) : Run :=
  match r.outcome with
  | some _ => r
  | none => go r.chunk r.tracing fuel r.ip r.machine r.log

end Run

end StackScript
