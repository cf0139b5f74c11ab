import StagedLisp.Main
import StagedLisp.Proofs.Eval.FreeVariables
import StagedLisp.Proofs.Eval.Restarts
import StagedLisp.Proofs.Eval.Scoping
import StagedLisp.Proofs.Eval.Undisturbed
import StagedLisp.Proofs.Flow.Lifetime
import StagedLisp.Proofs.Heap.Conservation
import StagedLisp.Proofs.Heap.Destination
import StagedLisp.Proofs.Heap.Direct
import StagedLisp.Proofs.Heap.InPlace
import StagedLisp.Proofs.Heap.Membership
import StagedLisp.Proofs.Primitive.Arithmetic
import StagedLisp.Proofs.Reader.Sequence
import StagedLisp.Proofs.Record.Replay
import StagedLisp.Proofs.Release.Borrowed
import StagedLisp.Proofs.Release.Captured
import StagedLisp.Proofs.Release.Early
import StagedLisp.Proofs.Release.Unused
import StagedLisp.Proofs.Shape.Settled
import StagedLisp.Proofs.Shape.Tree
import StagedLisp.Proofs.Twin.Ahead
import StagedLisp.Proofs.Twin.Callers
import StagedLisp.Proofs.Usage.Depth
import StagedLisp.Proofs.Usage.Returned
