import ProbeCoverage.Fault

/-!
# Counters

A counter holds how many items were missed and how many were covered. Its status tells which of
the two kinds it has seen; statuses combine as sets do.
-/

namespace ProbeCoverage

/-- Which kinds of item have been seen. -/
inductive Status
  | empty
  | notCovered
  | fullyCovered
  | partlyCovered
deriving DecidableEq

namespace Status

/-- The status of items of which some were missed, some covered. -/
def of (missed covered : Bool) : Status :=
  match missed, covered with
  | false, false => empty
  | true, false => notCovered
  | false, true => fullyCovered
  | true, true => partlyCovered

def hasMissed : Status → Bool
  | empty | fullyCovered => false
  | notCovered | partlyCovered => true

def hasCovered : Status → Bool
  | empty | notCovered => false
  | fullyCovered | partlyCovered => true

def combine (s t : Status) : Status :=
  of (s.hasMissed || t.hasMissed) (s.hasCovered || t.hasCovered)

end Status

structure Counter where
  missed : Nat
  covered : Nat
deriving DecidableEq

namespace Counter

instance : EmptyCollection Counter := ⟨⟨0, 0⟩⟩

def oneMissed : Counter := ⟨1, 0⟩

def oneCovered : Counter := ⟨0, 1⟩

def one (covered : Bool) : Counter := if covered then oneCovered else oneMissed

def total (c : Counter) : Except Fault Nat := addBelow countBound c.missed c.covered

def increment (c : Counter) (missed covered : Nat) : Except Fault Counter := do
  let m ← addBelow countBound c.missed missed
  let k ← addBelow countBound c.covered covered
  return ⟨m, k⟩

def add (c d : Counter) : Except Fault Counter := c.increment d.missed d.covered

def status (c : Counter) : Status := Status.of (0 < c.missed) (0 < c.covered)

/-- The covered share; an empty counter has none. -/
def share (c : Counter) : Except Fault (Option Float) := do
  let n ← c.total
  return if 0 < n then some (Float.ofNat c.covered / Float.ofNat n) else none

def text (c : Counter) : Except Fault String := do
  let n ← c.total
  return toString c.missed ++ " of " ++ toString n ++ " missed"

end Counter

end ProbeCoverage
