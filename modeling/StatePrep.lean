import StatePrep.Number.Amplitude
import StatePrep.Number.Binary64
import StatePrep.Number.Decimal
import StatePrep.Gate.Matrix
import StatePrep.Gate.Operation
import StatePrep.Tree.Cursor
import StatePrep.Tree.Order
import StatePrep.Tree.Path
import StatePrep.Simplify
import StatePrep.Circuit.Prepare
import StatePrep.Stored.Preparation
import StatePrep.Proofs.Simplify.FreeReduction
import StatePrep.Proofs.Tree.Leaves
import StatePrep.Proofs.Tree.OuterLeaf
import StatePrep.Proofs.Simplify.CxNormalForm
import StatePrep.Proofs.Number.Real
import StatePrep.Proofs.State.Scan
import StatePrep.Proofs.State.Sequence
import StatePrep.Proofs.State.Register
import StatePrep.Proofs.Wave.Basic
import StatePrep.Proofs.Wave.Action
import StatePrep.Proofs.Synthesis.Ladder
import StatePrep.Proofs.Synthesis.Multiplexor
import StatePrep.Proofs.Wave.Inverse
import StatePrep.Proofs.Wave.Overlap
import StatePrep.Proofs.Simplify.Leaves
import StatePrep.Proofs.Simplify.Deletion
import StatePrep.Proofs.Synthesis.BlochAngles
import StatePrep.Proofs.State.Placed
import StatePrep.Proofs.Synthesis.Disentangler
import StatePrep.Proofs.Synthesis.Preparation
import StatePrep.Proofs.Simplify.ExactCancellation
import StatePrep.Proofs.Synthesis.Phase
import StatePrep.Proofs.Circuit.Operands
import StatePrep.Proofs.Synthesis.Calls
import StatePrep.Proofs.Circuit.Method
import StatePrep.Proofs.Circuit.Runs
import StatePrep.Proofs.Number.GrayCode
import StatePrep.Proofs.Synthesis.ClosedForm
import StatePrep.Proofs.State.Image
import StatePrep.Proofs.Number.Rounded
import StatePrep.Proofs.Simplify.Accounting
import StatePrep.Proofs.State.InnerProduct
import StatePrep.Proofs.Synthesis.Collapse
import StatePrep.Proofs.Simplify.Turned
import StatePrep.Proofs.Simplify.Simple
import StatePrep.Proofs.Tree.Thinning
import StatePrep.Proofs.Simplify.Thinned
import StatePrep.Proofs.Synthesis.GateCount
import StatePrep.Proofs.Tree.MapLeaves
import StatePrep.Proofs.Simplify.MapLeaves
import StatePrep.Proofs.Synthesis.Rename
import StatePrep.Proofs.Synthesis.Mirror
import StatePrep.Proofs.Circuit.GlobalPhase
import StatePrep.Proofs.Synthesis.NoRotation
import StatePrep.Proofs.Wave.Disjoint
import StatePrep.Proofs.Synthesis.AxisX
import StatePrep.Proofs.Circuit.Growth
import StatePrep.Proofs.Circuit.Correction
import StatePrep.Proofs.Synthesis.Refusal
import StatePrep.Proofs.Simplify.Tolerance
import StatePrep.Proofs.Tree.Turning
import StatePrep.Proofs.Stored.Preparation
import StatePrep.Proofs.Tree.Walk
import StatePrep.Proofs.State.Stop
import StatePrep.Proofs.Tree.Address
