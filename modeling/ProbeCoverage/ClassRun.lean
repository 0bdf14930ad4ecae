import ProbeCoverage.Filter
import ProbeCoverage.Report.Class
import ProbeCoverage.RunMerge
import ProbeCoverage.Selection
import ProbeCoverage.Snapshot

/-!
# Analysing a class

The methods of a class are analysed one after the other: the graph of a method is recorded with the
probe array as it stands, merged with its imprint in the snapshot of a previous run, filtered and
counted. A merge may fire probes of the array.
-/

namespace ProbeCoverage

structure ClassRun where
  decl : ClassDecl
  filter : Filter
  previous : Option Snapshot
  probes : Option (Array Bool)
  report : ClassReport

/-- The result of an analysis: the report, and the probe array with the probes of merged runs. -/
structure Analysis where
  report : ClassReport
  probes : Option (Array Bool)
deriving DecidableEq

namespace ClassRun

def start (decl : ClassDecl) (filter : Filter) (previous : Option Snapshot)
    (probes : Option (Array Bool)) : ClassRun where
  decl := decl
  filter := filter
  previous := previous
  probes := probes
  report := .ofClass decl

/-- Merges the graph of a method with the snapshot, if there is one. -/
def mergePrevious (m : MethodDecl) (graph : FlowGraph) :
    Update ClassRun (MergeOutcome × FlowGraph) := fun run ↦
  match run.previous with
  | none => .ok (.noPrevious, graph) run
  | some snapshot =>
    let key := m.matchKey
    let merge := MethodRun.merge run.decl.name key (snapshot.method? key) snapshot.probes
    match merge.run { graph, probes := run.probes } with
    | .ok outcome s => .ok (outcome, s.graph) { run with probes := s.probes }
    | .error e s => .error e { run with probes := s.probes }

/-- The counters of a method after its filters. -/
def methodReport (run : ClassRun) (m : MethodDecl) (graph : FlowGraph) :
    Except Fault MethodReport :=
  let s := Selection.ofDecisions graph (run.filter.decisions m graph run.decl)
  s.tally graph { name := m.name, desc := m.desc, signature := m.signature }

/-- Adds a method to the report of its class, unless no code of it is left. -/
def addReport (m : MethodReport) : Update ClassRun Unit := do
  if ← m.containsCode then
    let report ← (← get).report.addMethod m
    modify ({ · with report })

def analyze (m : Method) : Update ClassRun MergeOutcome := do
  let graph ← FlowGraph.ofEvents (← get).probes m.events
  let (outcome, graph) ← mergePrevious m.decl graph
  let report ← (← get).methodReport m.decl graph
  addReport report
  return outcome

def finish (run : ClassRun) : Analysis where
  report := run.report
  probes := run.probes

end ClassRun

end ProbeCoverage
