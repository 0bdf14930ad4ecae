import ProbeCoverage.Counter
import Std.Data.ExtTreeMap

/-!
# Reports on source lines

The instruction and branch counters of a source line, and the table of all lines that have some.
-/

namespace ProbeCoverage

structure LineReport where
  instructions : Counter := ∅
  branches : Counter := ∅
deriving DecidableEq

namespace LineReport

def status (r : LineReport) : Status := r.instructions.status.combine r.branches.status

def increment (r : LineReport) (instructions branches : Counter) : Except Fault LineReport := do
  let i ← r.instructions.add instructions
  let b ← r.branches.add branches
  return ⟨i, b⟩

/-- How the line counts among lines: as nothing, as missed or as covered. -/
def counter (r : LineReport) : Counter :=
  match r.status with
  | .empty => ∅
  | .notCovered => Counter.oneMissed
  | .fullyCovered | .partlyCovered => Counter.oneCovered

end LineReport

structure LineTable where
  lines : Std.ExtTreeMap Nat LineReport
deriving DecidableEq

namespace LineTable

instance : EmptyCollection LineTable := ⟨⟨∅⟩⟩

def size (t : LineTable) : Nat := t.lines.size

def get? (t : LineTable) (line : Nat) : Option LineReport := t.lines[line]?

def toList (t : LineTable) : List (Nat × LineReport) := t.lines.toList

def first? (t : LineTable) : Option Nat := t.lines.minKey?

def last? (t : LineTable) : Option Nat := t.lines.maxKey?

def increment (t : LineTable) (line : Nat) (instructions branches : Counter) :
    Except Fault LineTable := do
  let r ← ((t.get? line).getD {}).increment instructions branches
  return ⟨t.lines.insert line r⟩

def merge (t u : LineTable) : Except Fault LineTable :=
  u.toList.foldlM (fun t (line, r) ↦ t.increment line r.instructions r.branches) t

def counter (t : LineTable) : Except Fault Counter :=
  t.toList.foldlM (fun c (_, r) ↦ c.add r.counter) ∅

end LineTable

end ProbeCoverage
