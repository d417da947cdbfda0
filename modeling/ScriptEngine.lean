import ScriptEngine.Machine.Configuration
import ScriptEngine.Instruction.Listing
import ScriptEngine.Session
import ScriptEngine.Proofs.Compile.Following
import ScriptEngine.Proofs.Compile.Steps
import ScriptEngine.Proofs.Compile.Resumption
import ScriptEngine.Proofs.Language.Outline
import ScriptEngine.Proofs.Language.Events
import ScriptEngine.Proofs.Language.Survey
import ScriptEngine.Proofs.Language.Slots
import ScriptEngine.Proofs.Compile.Declarations
import ScriptEngine.Proofs.Compile.Streams
import ScriptEngine.Proofs.Compile.Events
import ScriptEngine.Proofs.Compile.Balance
import ScriptEngine.Proofs.Machine.Effect
import ScriptEngine.Proofs.Machine.Admitted
import ScriptEngine.Proofs.Machine.Calls
import ScriptEngine.Proofs.Machine.Safety
import ScriptEngine.Proofs.Session.Safety
import ScriptEngine.Proofs.Tree.Evaluation
import ScriptEngine.Proofs.Tree.Names
import ScriptEngine.Proofs.Tree.Simulation
import ScriptEngine.Proofs.Tree.Pieces
import ScriptEngine.Proofs.Tree.Correctness
import ScriptEngine.Proofs.Scope.Lexical
import ScriptEngine.Proofs.Scope.Captures
import ScriptEngine.Proofs.Compile.Captures
import ScriptEngine.Proofs.Compile.Structs
import ScriptEngine.Proofs.Machine.Conduct
import ScriptEngine.Proofs.Session.Conduct
import ScriptEngine.Proofs.Machine.Structs
import ScriptEngine.Proofs.Session.Structs
import ScriptEngine.Proofs.Machine.Isolation
import ScriptEngine.Proofs.Session.Isolation
import ScriptEngine.Proofs.Compile.Persistence
import ScriptEngine.Proofs.Instruction.RoundTrip
import ScriptEngine.Proofs.Compile.Verification
import ScriptEngine.Proofs.Scope.Slots
import ScriptEngine.Proofs.Compile.Accounts
import ScriptEngine.Proofs.Compile.Loads
import ScriptEngine.Proofs.Compile.Stores
import ScriptEngine.Proofs.Session.Constants
import ScriptEngine.Proofs.Value.Unfolding
import ScriptEngine.Proofs.Machine.Confinement
import ScriptEngine.Proofs.Machine.Fetching
import ScriptEngine.Proofs.Machine.Capacity
import ScriptEngine.Proofs.Machine.Lockstep
import ScriptEngine.Proofs.Compile.Acceptance
import ScriptEngine.Proofs.Compile.Relocation
import ScriptEngine.Proofs.Compile.Splitting
import ScriptEngine.Proofs.Value.Renaming
import ScriptEngine.Proofs.Machine.Renaming
import ScriptEngine.Proofs.Machine.Excerpt
import ScriptEngine.Proofs.Machine.Failure
import ScriptEngine.Proofs.Value.Circles
import ScriptEngine.Proofs.Session.Splitting
import ScriptEngine.Proofs.Machine.Rendering
import ScriptEngine.Proofs.Compile.Numbering
import ScriptEngine.Proofs.Compile.Hoisting
import ScriptEngine.Proofs.Compile.Renumbering
import ScriptEngine.Proofs.Compile.Reordering
import ScriptEngine.Proofs.Machine.Declaring
import ScriptEngine.Proofs.Machine.Renumbering
import ScriptEngine.Proofs.Machine.Reordering
import ScriptEngine.Proofs.Value.Dict
import ScriptEngine.Proofs.Machine.Integrity
import ScriptEngine.Proofs.Session.Integrity
import ScriptEngine.Proofs.Machine.Indexing
import ScriptEngine.Proofs.Value.Equality
import ScriptEngine.Proofs.Compile.Initializers
import ScriptEngine.Proofs.Compile.Comparisons
import ScriptEngine.Proofs.Value.Zeros
import ScriptEngine.Proofs.Machine.Zeros
import ScriptEngine.Proofs.Compile.Bookkeeping
import ScriptEngine.Proofs.Machine.Configuration
