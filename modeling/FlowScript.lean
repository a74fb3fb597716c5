import FlowScript.Main
import FlowScript.Proofs.Call.Deferral
import FlowScript.Proofs.Call.Formatting
import FlowScript.Proofs.Clock.Race
import FlowScript.Proofs.Fault.Shown
import FlowScript.Proofs.Flow.EarlyReturn
import FlowScript.Proofs.Flow.Refinement
import FlowScript.Proofs.Grammar.CommentExtent
import FlowScript.Proofs.Json.RoundTrip
import FlowScript.Proofs.Run.Termination
import FlowScript.Proofs.Scope.Evaluation
import FlowScript.Proofs.Storage.Assignment
import FlowScript.Proofs.Storage.Forest
import FlowScript.Proofs.Storage.Frame
import FlowScript.Proofs.Syntax.Accepted
import FlowScript.Proofs.Syntax.Concatenation
import FlowScript.Proofs.Syntax.Misplaced
import FlowScript.Proofs.Syntax.Precedence
import FlowScript.Proofs.Syntax.Spacing
import FlowScript.Proofs.Time.Shift
import FlowScript.Proofs.Value.Equality
import FlowScript.Proofs.Value.Keys
import FlowScript.Proofs.Value.NumberOrder
import FlowScript.Proofs.Variable.Entry
import FlowScript.Proofs.Variable.Stability
import FlowScript.Proofs.Scope.History
import FlowScript.Proofs.Scope.Unwinding
import FlowScript.Proofs.Grammar.Alone
import FlowScript.Proofs.Syntax.Atoms
