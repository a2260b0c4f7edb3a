import StackScript.Proofs.Machine.Bounds
import StackScript.Proofs.Machine.Ending
import StackScript.Proofs.Machine.Room
import StackScript.Proofs.Shell.Lines

/-!
The command line and the sessions of the library. What the command shows for a text is what comes
of the text on the machine: its output, its listing if that is asked for, and its failure. A
conversation is a session with one text for each line, a script is one text on a new machine.
-/

namespace StackScript

namespace Machine

variable {m m' : Machine} {fuel : Nat} {tracing : Bool} {source : String} {failure : Option Failure}
  {log : Array Record}

end Machine

namespace Shell

/-- The listing of a text that compiles. -/
def listingOf (source : String) : String :=
  match compile source with
  | .ok c => c.listing "script"
  | .error _ => ""

/-- What has come of one text: how it failed and what it printed. -/
structure Answer where
  source : String
  failure : Option Failure
  output : Array UInt8

namespace Answer

/-- What is shown of it on standard output, behind the prompt. -/
def out (a : Answer) : Array UInt8 :=
  prompt.toUTF8.data ++ a.output

/-- What is shown of it on standard error. -/
def err (listing : Bool) (a : Answer) : String :=
  (if listing then listingOf a.source else "") ++ failureLine a.failure

end Answer

/-- One text after the other is interpreted on the machine, and these are the answers. -/
inductive Session : Machine → List Answer → Prop
  | done {m : Machine} : Session m []
  | step {m m' : Machine} {fuel : Nat} {a : Answer} {answers : List Answer} {log : Array Record}
      (hruns : m.interpret fuel false a.source = some (m', a.failure, log))
      (hout : m'.sink.written = m.sink.written ++ a.output) (hrest : Session m' answers) :
      Session m (a :: answers)

section Exchange

variable {fuel : Nat} {listing : Bool} {source : String} {m m' : Machine} {x : Exchange}

end Exchange

/-- What the second command has left is what the first one has, but for text that has been put in
between on standard error. -/
structure Exit.Inserts (plain listed : Exit) : Prop where
  code : listed.code = plain.code
  out : listed.out = plain.out
  err : plain.err.toList.Sublist listed.err.toList

theorem Exit.Inserts.refl (e : Exit) : e.Inserts e :=
  ⟨rfl, rfl, List.Sublist.refl _⟩

/-- What the command has left when these answers have been shown after what was there `before`. -/
def Exit.after (before : Exit) (listing : Bool) (answers : List Answer) (stopped : Bool) :
    Exit where
  code := before.code
  out := before.out ++ (answers.map Answer.out).toArray.flatten ++ prompt.toUTF8.data ++
    if stopped then #[] else "\n".toUTF8.data
  err := before.err ++ String.join (answers.map (Answer.err listing)) ++
    if stopped then inputNotText else ""

end Shell

end StackScript
