import ContextFreePaths.BoolMatrix.Composition
import ContextFreePaths.Grammar.Derivation
import ContextFreePaths.Grammar.Text
import ContextFreePaths.Graph.LabelMatrices
import ContextFreePaths.Reachability
import ContextFreePaths.Proofs.Interpretation
import ContextFreePaths.Proofs.ClosedSet
import ContextFreePaths.Proofs.TransitiveClosure
import ContextFreePaths.Proofs.NameRelation
import ContextFreePaths.Proofs.NormalForm.Useful
import ContextFreePaths.Proofs.NormalForm.Binary
import ContextFreePaths.Proofs.NormalForm.EpsilonFree
import ContextFreePaths.Proofs.NormalForm.UnitFree
import ContextFreePaths.Proofs.NormalForm.Separated
import ContextFreePaths.Proofs.NormalForm.Language
import ContextFreePaths.Proofs.Membership
import ContextFreePaths.Proofs.LabelMatrices
import ContextFreePaths.Proofs.ReachTable
import ContextFreePaths.Proofs.Saturation
import ContextFreePaths.Proofs.LeastSolution
import ContextFreePaths.Proofs.AllPairs
import ContextFreePaths.Proofs.NonterminalMatrices
import ContextFreePaths.Proofs.Cutting
import ContextFreePaths.Proofs.RoundTrip
import ContextFreePaths.Proofs.NormalForm.Legible
import ContextFreePaths.Proofs.EdgeSet
import ContextFreePaths.Proofs.Decomposition
import ContextFreePaths.Proofs.MatrixRuns
import ContextFreePaths.Proofs.NormalForm.Simulation
import ContextFreePaths.Proofs.NormalForm.Renaming
import ContextFreePaths.Proofs.Presentation
import ContextFreePaths.Proofs.PassCounts
import ContextFreePaths.Proofs.PassHistory
import ContextFreePaths.Proofs.ClosureStages
import ContextFreePaths.Proofs.Rewriting
import ContextFreePaths.Proofs.NormalForm.UsedRules
import ContextFreePaths.Proofs.NormalForm.Splitting
import ContextFreePaths.Proofs.NormalForm.StandIns
import ContextFreePaths.Proofs.NormalForm.FixedPoint
import ContextFreePaths.Proofs.WorkOrder
import ContextFreePaths.Proofs.RelationMatrices
import ContextFreePaths.Proofs.ProductionOrder
import ContextFreePaths.Proofs.NameSupply
import ContextFreePaths.Proofs.JoinedTexts
