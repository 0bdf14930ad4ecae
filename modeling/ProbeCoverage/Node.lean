import ProbeCoverage.BranchSet
import ProbeCoverage.Counter

/-!
# Instructions as nodes

A node is one instruction of a method: how many branches leave it, which of them were taken, and
the branch through which control enters it.
-/

namespace ProbeCoverage

/-- Branch `index` of the instruction at `node`. -/
structure Branch where
  node : NodeId
  index : Nat
deriving DecidableEq

structure Node where
  line : Option Nat := none
  branches : Nat := 0
  covered : BranchSet := ∅
  /-- The branch that leads here; of several, the one registered last. -/
  link : Option Branch := none
  signature : Option String := none
  probe : Option Nat := none
deriving DecidableEq

namespace Node

def isCovered (n : Node) : Bool := !n.covered.isEmpty

def cover (n : Node) (b : Nat) : Node := { n with covered := n.covered.insert b }

@[simp] theorem isCovered_cover (n : Node) (b : Nat) : (n.cover b).isCovered = true := by
  simp [isCovered, cover, BranchSet.isEmpty_insert]

def instructionCounter (n : Node) : Counter := Counter.one n.isCovered

/-- The branches of a decision; an instruction with fewer than two decides nothing. -/
def branchCounter (n : Node) : Counter :=
  if n.branches < 2 then ∅
  else
    let k := min n.covered.size (countBound - 1)
    ⟨n.branches - k, k⟩

/-- Counts `n` and `other` as one instruction in the place of `n`. -/
def merge (n other : Node) : Node where
  line := n.line
  branches := other.branches
  covered := n.covered ∪ other.covered
  signature := n.signature

/-- Adds the branches that `prior` had taken. -/
def absorb (n prior : Node) : Node := { n with covered := n.covered ∪ prior.covered }

/-- As `absorb`, and tells whether a branch was new. -/
def absorbGrows (n prior : Node) : Bool × Node :=
  let (grows, covered) := n.covered.unionGrows prior.covered
  (grows, { n with covered })

/-- Gives `n` one branch for each target, taken where the target is covered. -/
def retarget (n : Node) (targets : List Node) : Node where
  line := n.line
  branches := min targets.length (countBound - 1)
  covered :=
    BranchSet.ofList (targets.zipIdx.filterMap fun (t, k) ↦ if t.isCovered then some k else none)
  signature := n.signature

end Node

end ProbeCoverage
