import ProbeCoverage.Filter
import ProbeCoverage.Report.Method

/-!
# Selecting what is counted

A selection collects decisions on the instructions of a graph: intervals to skip, links from merged
instructions to the one that stands for them, and branches to replace. In the end it yields the
instructions to report, and their counters.
-/

namespace ProbeCoverage

structure Selection where
  /-- Intervals to skip, both ends included. -/
  ignored : List (NodeId × NodeId) := []
  /-- Links from merged instructions towards the one that stands for them. -/
  links : Std.ExtTreeMap NodeId NodeId := ∅
  replacements : Std.ExtTreeMap NodeId (List NodeId) := ∅

namespace Selection

/-- Follows at most `n` links. -/
def follow (links : Std.ExtTreeMap NodeId NodeId) : Nat → NodeId → NodeId
  | 0, id => id
  | n + 1, id =>
    match links[id]? with
    | some next => follow links n next
    | none => id

/-- The instruction that stands for `id`. No walk meets a link twice, so their number suffices. -/
def root (s : Selection) (id : NodeId) : NodeId := follow s.links s.links.size id

def skips (s : Selection) (id : NodeId) : Bool :=
  s.ignored.any fun (first, last) ↦ first ≤ id && id ≤ last

def ignore (s : Selection) (first last : NodeId) : Selection :=
  { s with ignored := (first, last) :: s.ignored }

def merge (s : Selection) (a b : NodeId) : Selection :=
  let a := s.root a
  let b := s.root b
  if a = b then s else { s with links := s.links.insert b a }

def replace (s : Selection) (source : NodeId) (targets : List NodeId) : Selection :=
  { s with replacements := s.replacements.insert source targets }

/-- Adds a decision on the instructions of `g`. Instructions unknown to `g` do not count: a decision
between two falls, a list of targets goes without them. -/
def apply (g : FlowGraph) (s : Selection) : Decision → Selection
  | .ignore first last =>
    match g.id? first, g.id? last with
    | some first, some last => s.ignore first last
    | _, _ => s
  | .merge a b =>
    match g.id? a, g.id? b with
    | some a, some b => s.merge a b
    | _, _ => s
  | .retarget source targets =>
    match g.id? source with
    | some source => s.replace source (targets.filterMap g.id?)
    | none => s

def ignores (g : FlowGraph) (s : Selection) (handle : Handle) : Bool :=
  (g.id? handle).any s.skips

def ofDecisions (g : FlowGraph) (ds : List Decision) : Selection := ds.foldl (apply g) {}

/-- Instructions that take the place of those of the graph. -/
abbrev Revised := Std.ExtTreeMap NodeId Node

def current (g : FlowGraph) (w : Revised) (id : NodeId) : Option Node := w[id]? <|> g.node? id

/-- Merges the instruction `id` into the one that stands for it. -/
def combine (g : FlowGraph) (s : Selection) (w : Revised) (id : NodeId) : Revised :=
  let rep := s.root id
  match current g w rep, current g w id with
  | some n, some m => w.insert rep (n.merge m)
  | _, _ => w

/-- Lets the instruction `id` be as the one that stands for it. -/
def copyBack (g : FlowGraph) (s : Selection) (w : Revised) (id : NodeId) : Revised :=
  match current g w (s.root id) with
  | some n => w.insert id n
  | none => w

def replaceAt (g : FlowGraph) (w : Revised) (source : NodeId) (targets : List NodeId) :
    Revised :=
  match current g w source with
  | some n => w.insert source (n.retarget (targets.filterMap (current g w)))
  | none => w

/-- First the merges in the order of the code, then the replacements, each of which sees what came
before. -/
def revised (g : FlowGraph) (s : Selection) : Revised :=
  let merged := s.links.keys
  let w := merged.foldl (combine g s) ∅
  let w := merged.foldl (copyBack g s) w
  s.replacements.toList.foldl (fun w (source, targets) ↦ replaceAt g w source targets) w

/-- The instructions to report, in the order of the code. -/
def reported (g : FlowGraph) (s : Selection) : List Node :=
  let w := s.revised g
  g.nodes.toList.zipIdx.filterMap fun (n, id) ↦
    if s.skips id || s.links.contains id then none else some (w.getD id n)

/-- Adds the counters of what is to be reported. -/
def tally (g : FlowGraph) (s : Selection) (r : MethodReport) : Except Fault MethodReport := do
  let r ← (s.reported g).foldlM
    (fun r n ↦ r.increment n.instructionCounter n.branchCounter n.line) r
  r.incrementMethod

end Selection

end ProbeCoverage
