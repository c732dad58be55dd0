import HybridGradient.Proofs.Adjoint
import HybridGradient.Proofs.BalancedProblem
import HybridGradient.Proofs.Box
import HybridGradient.Proofs.CoefficientRange
import HybridGradient.Proofs.Columns
import HybridGradient.Proofs.Confinement
import HybridGradient.Proofs.Convergence
import HybridGradient.Proofs.Equilibration
import HybridGradient.Proofs.Equivalence
import HybridGradient.Proofs.Findings
import HybridGradient.Proofs.Finiteness
import HybridGradient.Proofs.Lagrangian
import HybridGradient.Proofs.MeanFactor
import HybridGradient.Proofs.Printing
import HybridGradient.Proofs.Proximal
import HybridGradient.Proofs.Records
import HybridGradient.Proofs.RenamedRuns
import HybridGradient.Proofs.Resumption
import HybridGradient.Proofs.Schedule
import HybridGradient.Proofs.SinkContents
import HybridGradient.Proofs.StorageOrder
import HybridGradient.Proofs.Totality
import HybridGradient.Proofs.Transposition
import HybridGradient.Proofs.UsableStep
import HybridGradient.Proofs.Watching
import HybridGradient.Proofs.ZeroNorm
import HybridGradient.Session
