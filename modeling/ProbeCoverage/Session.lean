import ProbeCoverage.ClassRun

/-!
# Sessions

A session keeps one snapshot for each class name and analyses classes, merging each with its
snapshot.
-/

namespace ProbeCoverage

structure Settings where
  merge : Bool := true
  filters : FilterFlags := .all
  /-- How many workers share a batch, if that is fixed; results do not depend on it. -/
  threads : Option Nat := none
deriving DecidableEq

namespace Settings

/-- Neither merges nor filters. -/
def raw : Settings where
  merge := false
  filters := ∅

def setMerge (s : Settings) (merge : Bool) : Settings := { s with merge }

def setFilters (s : Settings) (filters : FilterFlags) : Settings := { s with filters }

/-- Zero workers leave the number open. -/
def setThreads (s : Settings) (n : Nat) : Settings :=
  { s with threads := if 0 < n then some n else none }

end Settings

/-- A class, and the probe array that one run of it left. -/
structure ExecutedClass where
  decl : ClassDecl
  methods : List Method
  probes : Option (Array Bool)
deriving DecidableEq

structure Session where
  settings : Settings
  filter : Filter
  snapshots : Std.ExtTreeMap String Snapshot := ∅

namespace Session

def ofSettings (s : Settings) : Session where
  settings := s
  filter := .chain s.filters.filters

/-- Records a run of a class, in the place of an earlier one. -/
def capture (input : ExecutedClass) : Update Session Unit := do
  let snapshot ← Snapshot.capture input.methods input.probes
  modify fun s ↦ { s with snapshots := s.snapshots.insert input.decl.name snapshot }

def captureAll (inputs : List ExecutedClass) : Update Session Unit := inputs.forM capture

def previous? (s : Session) (className : String) : Option Snapshot :=
  if s.settings.merge then s.snapshots[className]? else none

def analyze (s : Session) (input : ExecutedClass) : Except Fault Analysis :=
  let run := ClassRun.start input.decl s.filter (s.previous? input.decl.name) input.probes
  match (input.methods.forM fun m ↦ discard (ClassRun.analyze m)).run run with
  | .ok _ run => .ok run.finish
  | .error e _ => .error e

def analyzeAll (s : Session) (inputs : List ExecutedClass) : Except Fault (List Analysis) :=
  inputs.mapM s.analyze

def reset (s : Session) : Session := { s with snapshots := ∅ }

def size (s : Session) : Nat := s.snapshots.size

def isCaptured (s : Session) (className : String) : Bool := s.snapshots.contains className

end Session

end ProbeCoverage
