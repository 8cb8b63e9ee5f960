import TimedSafety.Matrix.Addressed
import TimedSafety.Proofs.Automaton.Fischer
import TimedSafety.Proofs.Automaton.Precondition
import TimedSafety.Proofs.Automaton.Predecessor
import TimedSafety.Proofs.Automaton.Successor
import TimedSafety.Proofs.Graph.Elimination
import TimedSafety.Proofs.Graph.ErrorStates
import TimedSafety.Proofs.Graph.Explanation
import TimedSafety.Proofs.Graph.Lineage
import TimedSafety.Proofs.Graph.Realization
import TimedSafety.Proofs.Graph.Resumption
import TimedSafety.Proofs.Graph.Steps
import TimedSafety.Proofs.Graph.Validation
import TimedSafety.Proofs.Precision.Override
import TimedSafety.Proofs.Verification.Elimination
import TimedSafety.Proofs.Verification.Limit
import TimedSafety.Proofs.Verification.Progress
import TimedSafety.Proofs.Verification.Resumption
import TimedSafety.Proofs.Verification.Verdicts
import TimedSafety.Proofs.Zone.Capacity
import TimedSafety.Proofs.Zone.Cells
import TimedSafety.Proofs.Zone.Description
import TimedSafety.Proofs.Zone.Stability
import TimedSafety.StopBoard
import TimedSafety.Verification.Supervision
