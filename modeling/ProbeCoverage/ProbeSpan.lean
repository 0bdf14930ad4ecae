import ProbeCoverage.FlowGraph

/-!
# Probe spans

The interval of probe ids in use, from the smallest to the largest.
-/

namespace ProbeCoverage

structure ProbeSpan where
  first : Nat
  last : Nat
  first_le_last : first ≤ last
deriving DecidableEq

namespace ProbeSpan

def single (probe : Nat) : ProbeSpan := ⟨probe, probe, Nat.le_refl _⟩

def extend (s : ProbeSpan) (probe : Nat) : ProbeSpan where
  first := min s.first probe
  last := max s.last probe
  first_le_last := by
    have := s.first_le_last
    omega

def contains (s : ProbeSpan) (probe : Nat) : Bool := s.first ≤ probe && probe ≤ s.last

/-- How many ids the span holds. -/
def width (s : ProbeSpan) : Except Fault Nat := addBelow probeBound (s.last - s.first) 1

def ofProbes : List Nat → Option ProbeSpan
  | [] => none
  | p :: ps => some (ps.foldl extend (single p))

end ProbeSpan

def FlowGraph.probeSpan (g : FlowGraph) : Option ProbeSpan :=
  ProbeSpan.ofProbes (g.nodes.toList.filterMap (·.probe))

end ProbeCoverage
