import ProbeCoverage.Change
import ProbeCoverage.Declaration
import ProbeCoverage.Report.Method

/-!
# Reports on classes

The methods of a class that hold code, and the sums of their counters and lines.
-/

namespace ProbeCoverage

structure ClassReport where
  name : String
  signature : Option String := none
  superName : Option String := none
  interfaces : List String := []
  sourceFile : Option String := none
  methods : Array MethodReport := #[]
  instructions : Counter := ∅
  branches : Counter := ∅
  complexity : Counter := ∅
  methodCounter : Counter := ∅
  lines : LineTable := ∅
deriving DecidableEq

namespace ClassReport

/-- The report on a class of which no method has been added. -/
def ofClass (c : ClassDecl) : ClassReport where
  name := c.name
  signature := c.signature
  superName := c.superName
  interfaces := c.interfaces
  sourceFile := c.sourceFile

def addMethod (r : ClassReport) (m : MethodReport) : Except Fault ClassReport := do
  let i ← r.instructions.add m.instructions
  let b ← r.branches.add m.branches
  let c ← r.complexity.add m.complexity
  let k ← r.methodCounter.add m.methods
  let t ← r.lines.merge m.lines
  return { r with
    methods := r.methods.push m
    instructions := i
    branches := b
    complexity := c
    methodCounter := k
    lines := t }

def lineCounter (r : ClassReport) : Except Fault Counter := r.lines.counter

/-- The lines in ascending order, each with the change that it belongs to. -/
def annotatedLines (r : ClassReport) (ranges : List ChangeRange) :
    List (Nat × LineReport × Option ChangeKind) :=
  r.lines.toList.map fun (line, l) ↦ (line, l, kindAt ranges line)

end ClassReport

end ProbeCoverage
