import Std.Data.ExtTreeSet
import ProbeCoverage.Imprint

/-!
# Merging with a previous run

The graph of a method is merged with the imprint of a previous run if the two hold the same
signatures and span equally many probes. Each instruction then counts the branches that were taken
in either run, and the probe array of the current run the probes that fired in either.
-/

namespace ProbeCoverage

inductive MergeOutcome
  | merged
  | noPrevious
  | nodeCountMismatch (current previous : Nat)
  /-- The signatures of the previous run that the current one lacks, in ascending order. -/
  | signatureMismatch (missing : List String)
deriving DecidableEq

def MergeOutcome.isMerged (o : MergeOutcome) : Bool := o = .merged

/-- What a merge may change: the graph of the method and the probe array of its class. -/
structure MethodRun where
  graph : FlowGraph
  probes : Option (Array Bool)
deriving DecidableEq

def FlowGraph.signatures (g : FlowGraph) : Std.ExtTreeSet String :=
  g.nodes.toList.foldl (fun s n ↦ n.signature.elim s s.insert) ∅

def Imprint.missingIn (m : Imprint) (g : FlowGraph) : List String :=
  let present := g.signatures
  (m.toList.map (·.1)).filter (!present.contains ·)

/-- Adds to each instruction what the one under its signature had taken. -/
def FlowGraph.absorb (g : FlowGraph) (m : Imprint) : FlowGraph :=
  { g with nodes := g.nodes.map fun n ↦ (n.signature.bind m.get?).elim n n.absorb }

/-- Pairs the spans of two runs, which have to be equally wide. -/
def alignSpans (className method : String) :
    Option ProbeSpan → Option ProbeSpan → Except Fault (Option (ProbeSpan × ProbeSpan))
  | some current, some previous => do
    let w ← current.width
    let w' ← previous.width
    if w = w' then return some (current, previous)
    else throw (.probeSpanMismatch className method w w')
  | none, none => return none
  | some current, none => do
    throw (.probeSpanMismatch className method (← current.width) 0)
  | none, some previous => do
    throw (.probeSpanMismatch className method 0 (← previous.width))

/-- Fires each probe of `span` whose counterpart in the previous array fired. -/
def fireProbes (span : ProbeSpan) (previous : Array Bool) (previousSpan : ProbeSpan) :
    Update (Array Bool) Unit := fun probes ↦
  if probes.size ≤ span.last then .error (.probeOutOfBounds span.last probes.size) probes
  else if previous.size ≤ previousSpan.last then
    .error (.probeOutOfBounds previousSpan.last previous.size) probes
  else
    .ok () (probes.mapIdx fun i fired ↦
      fired || (span.contains i && previous.getD (previousSpan.first + (i - span.first)) false))

namespace MethodRun

/-- Merges the probe arrays, if both runs have one and both methods use probes. -/
def mergeProbes (spans : Option (ProbeSpan × ProbeSpan)) (previous : Option (Array Bool)) :
    Update MethodRun Unit := fun run ↦
  match spans, run.probes, previous with
  | some (span, previousSpan), some probes, some previous =>
    match (fireProbes span previous previousSpan).run probes with
    | .ok () probes => .ok () { run with probes := some probes }
    | .error e probes => .error e { run with probes := some probes }
  | _, _, _ => .ok () run

/-- Merges the run with the imprint and the probe array of a previous one. The names of the class
and of the method are for messages. -/
def merge (className method : String) (previous : Option Imprint)
    (previousProbes : Option (Array Bool)) : Update MethodRun MergeOutcome := do
  let some imprint := previous | return .noPrevious
  let graph := (← get).graph
  if imprint.size ≠ graph.size then
    return .nodeCountMismatch graph.size imprint.size
  let missing := imprint.missingIn graph
  if missing ≠ [] then
    return .signatureMismatch missing
  let spans ← alignSpans className method graph.probeSpan imprint.probeSpan
  mergeProbes spans previousProbes
  modify fun run ↦ { run with graph := run.graph.absorb imprint }
  return .merged

end MethodRun

end ProbeCoverage
