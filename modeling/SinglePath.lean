import SinglePath.Main
import SinglePath.Proofs.Allocation.Booked
import SinglePath.Proofs.CellFlow.Paths
import SinglePath.Proofs.CellFlow.Represented
import SinglePath.Proofs.CellFlow.Stable
import SinglePath.Proofs.Flow.Transfers
import SinglePath.Proofs.Plan.Predicated
import SinglePath.Proofs.Program.Accepted
import SinglePath.Proofs.Program.Generated
import SinglePath.Proofs.Program.LiveIns
import SinglePath.Proofs.Reduction.Consistent
import SinglePath.Proofs.Reduction.Stored
import SinglePath.ScopeTree.Text
