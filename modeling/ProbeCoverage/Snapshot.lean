import ProbeCoverage.Declaration
import ProbeCoverage.FlowGraph.Recording
import ProbeCoverage.Imprint

/-!
# Snapshots

What is kept of a run of a class: its probe array and the imprints of its methods.
-/

namespace ProbeCoverage

structure Snapshot where
  probes : Option (Array Bool)
  methods : Std.ExtTreeMap String Imprint := ∅
deriving DecidableEq

namespace Snapshot

def size (s : Snapshot) : Nat := s.methods.size

def method? (s : Snapshot) (key : String) : Option Imprint := s.methods[key]?

def insert (s : Snapshot) (key : String) (m : Imprint) : Snapshot :=
  { s with methods := s.methods.insert key m }

/-- Records a method, unless it has no code or an instruction without signature. -/
def captureMethod (s : Snapshot) (m : Method) : Except Fault Snapshot := do
  if m.decl.hasNoCode then
    return s
  let graph ← FlowGraph.ofEvents s.probes m.events
  return graph.imprint?.elim s (s.insert m.decl.matchKey)

def capture (methods : List Method) (probes : Option (Array Bool)) : Except Fault Snapshot :=
  methods.foldlM captureMethod { probes }

end Snapshot

end ProbeCoverage
