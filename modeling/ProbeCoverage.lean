import ProbeCoverage.Session
import ProbeCoverage.BranchSet.Lemmas
import ProbeCoverage.Proofs.Absorption
import ProbeCoverage.Proofs.Additivity
import ProbeCoverage.Proofs.Imprint
import ProbeCoverage.Proofs.Merge
import ProbeCoverage.Proofs.Construction
import ProbeCoverage.Proofs.Counting
import ProbeCoverage.Proofs.SessionHistory
import ProbeCoverage.Proofs.SessionRerun
import ProbeCoverage.Proofs.Reachability
import ProbeCoverage.Proofs.MergedProbes
import ProbeCoverage.Proofs.RejectedMethods
import ProbeCoverage.Proofs.MatchKey
import ProbeCoverage.Proofs.MethodOrder
import ProbeCoverage.Proofs.MergedCoverage
import ProbeCoverage.Proofs.Acceptance
import ProbeCoverage.Proofs.SpanWidth
import ProbeCoverage.Proofs.WorkingArray
import ProbeCoverage.Proofs.BuiltInFilters
import ProbeCoverage.Proofs.DroppedMethods
import ProbeCoverage.Proofs.Wiring
import ProbeCoverage.Proofs.Description
import ProbeCoverage.Proofs.PerfectMatch
import ProbeCoverage.Proofs.MergeLinks
import ProbeCoverage.Proofs.MergeClasses
import ProbeCoverage.Proofs.Retargeting
import ProbeCoverage.Proofs.Complexity
import ProbeCoverage.Proofs.CounterBounds
import ProbeCoverage.Proofs.RollUp
import ProbeCoverage.Proofs.RefusedCalls
import ProbeCoverage.Proofs.WalkLength
import ProbeCoverage.Proofs.Representation
import ProbeCoverage.Proofs.InstructionSignature
import ProbeCoverage.Proofs.MergedBranches
import ProbeCoverage.Proofs.MergeForest
import ProbeCoverage.Proofs.SetRefinement
