import StackScript.Main
import StackScript.Tree.Meaning
import StackScript.Tree.Limits
import StackScript.Tree.Grammar
import StackScript.Proofs.Builder.Closed
import StackScript.Proofs.Pool
import StackScript.Proofs.Builder.Clean
import StackScript.Proofs.Builder.Writing
import StackScript.Proofs.Builder.Reading
import StackScript.Proofs.Grammar.Expression
import StackScript.Proofs.Grammar.Statement
import StackScript.Proofs.Grammar.Program
import StackScript.Proofs.Builder.Compiling
import StackScript.Proofs.Builder.Scoping
import StackScript.Proofs.Compiler.Expression
import StackScript.Proofs.Compiler.Place
import StackScript.Proofs.Compiler.Declaration
import StackScript.Proofs.Compiler.Statement
import StackScript.Proofs.Compiler.Chain
import StackScript.Proofs.Compiler.Loop
import StackScript.Proofs.Compiler.Program
import StackScript.Proofs.Code.Placement
import StackScript.Proofs.Code.Boundary
import StackScript.Proofs.Code.Flow
import StackScript.Proofs.Tree.Regular
import StackScript.Proofs.Code.Balance
import StackScript.Proofs.Machine.Moves
import StackScript.Proofs.Machine.Path
import StackScript.Proofs.Code.Decode
import StackScript.Proofs.Code.Stepping
import StackScript.Proofs.WellFormed
import StackScript.Proofs.Compiler.Visits
import StackScript.Proofs.StackDiscipline
import StackScript.Proofs.Machine.Holding
import StackScript.Proofs.Simulation.Basic
import StackScript.Proofs.Simulation.Instruction
import StackScript.Proofs.Simulation.Variable
import StackScript.Proofs.Simulation.Expression
import StackScript.Proofs.Simulation.Loop
import StackScript.Proofs.Simulation.Statement
import StackScript.Proofs.Machine.Ending
import StackScript.Proofs.Preservation
import StackScript.Proofs.Builder.Errors
import StackScript.Proofs.Builder.Levels
import StackScript.Proofs.Lockstep.Basic
import StackScript.Proofs.Lockstep.Expression
import StackScript.Proofs.Lockstep.Statement
import StackScript.Proofs.Lockstep.Upkeep
import StackScript.Proofs.Token.Lines
import StackScript.Proofs.Diagnosis
import StackScript.Proofs.Machine.Twins
import StackScript.Proofs.Isolation
import StackScript.Proofs.Token.Behind
import StackScript.Proofs.Builder.Progress
import StackScript.Proofs.Lockstep.Further
import StackScript.Proofs.Recovery
import StackScript.Proofs.Code.Embedding
import StackScript.Proofs.Compiler.Sequence
import StackScript.Proofs.Compiler.Joined
import StackScript.Proofs.Sequencing
import StackScript.Proofs.Machine.Bounds
import StackScript.Proofs.Safety
import StackScript.Proofs.Acceptance
import StackScript.Proofs.Builder.Quiet
import StackScript.Proofs.Reader.Code
import StackScript.Proofs.Reader.Runs
import StackScript.Proofs.Reader.Agreement
import StackScript.Proofs.Termination
import StackScript.Proofs.Token.Lexeme
import StackScript.Proofs.Tree.Enclosed
import StackScript.Proofs.Grammar.Written
import StackScript.Proofs.Rendering
import StackScript.Tree.Desugared
import StackScript.Proofs.Token.Tiles
import StackScript.Proofs.Tiling
import StackScript.Proofs.Token.Lexicon
import StackScript.Proofs.Builder.Still
import StackScript.Proofs.Builder.Declaring
import StackScript.Proofs.Reader.Phases
import StackScript.Proofs.LongestMatch
import StackScript.Proofs.Scopes
import StackScript.Proofs.Machine.Meeting
import StackScript.Proofs.Code.Accord
import StackScript.Proofs.Code.Congruence
import StackScript.Proofs.Desugaring
import StackScript.Proofs.Rescanning
import StackScript.Proofs.Builder.Timeline
import StackScript.Proofs.Code.Fetching
import StackScript.Proofs.LineTable
import StackScript.Proofs.Code.Cuts
import StackScript.Proofs.Listed
import StackScript.Proofs.Tree.LoopFree
import StackScript.Proofs.Halting
import StackScript.Proofs.Machine.Composing
import StackScript.Proofs.Machine.Avoiding
import StackScript.Proofs.Machine.Keeping
import StackScript.Proofs.Machine.Room
import StackScript.Proofs.Truncation
import StackScript.Proofs.Clearing
import StackScript.Proofs.Tree.Targets
import StackScript.Proofs.Framing
import StackScript.Proofs.Shell.Lines
import StackScript.Proofs.Shell.Conversation
import StackScript.Proofs.CommandLine
import StackScript.Proofs.Pooling
import StackScript.Proofs.Number.Digits
import StackScript.Proofs.Number.Rounding
import StackScript.Proofs.Number.Shortest
import StackScript.Proofs.Number.Bits
import StackScript.Proofs.Printing
