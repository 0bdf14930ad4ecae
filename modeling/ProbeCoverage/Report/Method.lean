import ProbeCoverage.Report.Line

/-!
# Reports on methods

The counters of one method: its instructions, the branches of its decisions, its cyclomatic
complexity, the method as one item, and its lines.
-/

namespace ProbeCoverage

structure MethodReport where
  name : String
  desc : String
  signature : Option String
  instructions : Counter := ∅
  branches : Counter := ∅
  complexity : Counter := ∅
  methods : Counter := ∅
  lines : LineTable := ∅
deriving DecidableEq

namespace MethodReport

def incrementLine (t : LineTable) (instructions branches : Counter) :
    Option Nat → Except Fault LineTable
  | some line => t.increment line instructions branches
  | none => return t

/-- What a decision adds to the complexity: one item less than it has branches, of which all but
one of those taken count as covered. -/
def decisionCounter (branches : Counter) : Except Fault Counter := do
  let n ← branches.total
  if 1 < n then
    let k := branches.covered - 1
    return ⟨n - (k + 1), k⟩
  else return ∅

/-- Adds the counters of an instruction, which may belong to a line. -/
def increment (r : MethodReport) (instructions branches : Counter) (line : Option Nat) :
    Except Fault MethodReport := do
  let i ← r.instructions.add instructions
  let b ← r.branches.add branches
  let t ← incrementLine r.lines instructions branches line
  let c ← r.complexity.add (← decisionCounter branches)
  return { r with instructions := i, branches := b, lines := t, complexity := c }

/-- Counts the method itself, as covered if an instruction is. -/
def incrementMethod (r : MethodReport) : Except Fault MethodReport := do
  let base := Counter.one (r.instructions.covered ≠ 0)
  let m ← r.methods.add base
  let c ← r.complexity.add base
  return { r with methods := m, complexity := c }

def lineCounter (r : MethodReport) : Except Fault Counter := r.lines.counter

def containsCode (r : MethodReport) : Except Fault Bool := do
  return 0 < (← r.instructions.total)

end MethodReport

end ProbeCoverage
