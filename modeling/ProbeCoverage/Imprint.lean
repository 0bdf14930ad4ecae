import ProbeCoverage.ProbeSpan

/-!
# Imprints

What a later run needs to know of a method: its instructions, each under its signature.
-/

namespace ProbeCoverage

structure Imprint where
  nodes : Std.ExtTreeMap String Node
deriving DecidableEq

namespace Imprint

instance : EmptyCollection Imprint := ⟨⟨∅⟩⟩

def size (m : Imprint) : Nat := m.nodes.size

def get? (m : Imprint) (signature : String) : Option Node := m.nodes[signature]?

def insert (m : Imprint) (signature : String) (node : Node) : Imprint :=
  ⟨m.nodes.insert signature node⟩

def erase (m : Imprint) (signature : String) : Imprint := ⟨m.nodes.erase signature⟩

/-- The signatures in ascending order, each with its instruction. -/
def toList (m : Imprint) : List (String × Node) := m.nodes.toList

def probeSpan (m : Imprint) : Option ProbeSpan :=
  ProbeSpan.ofProbes (m.toList.filterMap (·.2.probe))

def insertNode? (m : Imprint) (n : Node) : Option Imprint := n.signature.map (m.insert · n)

end Imprint

/-- The imprint of a graph; there is none if an instruction has no signature. -/
def FlowGraph.imprint? (g : FlowGraph) : Option Imprint :=
  g.nodes.toList.foldlM Imprint.insertNode? ∅

end ProbeCoverage
