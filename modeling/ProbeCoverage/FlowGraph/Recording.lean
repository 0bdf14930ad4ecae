import ProbeCoverage.FlowGraph

/-!
# Recording a method

A recording takes the events of a method one by one. Instructions, their falling through to the
next and their probes enter the graph at once; a jump may lead to a label that marks nothing yet,
so jumps are kept and wired when the recording is finished.
-/

namespace ProbeCoverage

/-- The largest index of a branch. -/
def maxBranch : Nat := 65535

structure Recording where
  /-- The probe array of the class; without one, no probe counts as fired. -/
  probes : Option (Array Bool)
  line : Option Nat := none
  /-- The instruction that the next one follows. -/
  current : Option NodeId := none
  /-- The labels that mark the next instruction. -/
  pending : List Label := []
  places : Std.ExtTreeMap Label NodeId := ∅
  jumps : Array Jump := #[]
  graph : FlowGraph := {}
  ended : Bool := false
deriving DecidableEq

namespace Recording

def onGraph {α : Type} (op : Update FlowGraph α) : Update Recording α := fun r ↦
  match op.run r.graph with
  | .ok a g => .ok a { r with graph := g }
  | .error e g => .error e { r with graph := g }

def setLine (number : Nat) : Update Recording Unit :=
  modify ({ · with line := some number })

/-- The next instruction does not follow the current one. -/
def breakFlow : Update Recording Unit :=
  modify ({ · with current := none })

def addLabel (label : Label) (successor : Bool) : Update Recording Unit := do
  modify fun r ↦ { r with pending := label :: r.pending }
  unless successor do
    breakFlow

/-- Lets the pending labels mark the instruction `id`. -/
def placeLabels (id : NodeId) : Update Recording Unit :=
  modify fun r ↦ { r with
    places := r.pending.foldl (·.insert · id) r.places
    pending := [] }

def addInstruction (handle : Handle) (signature : Option String) : Update Recording NodeId := do
  let line := (← get).line
  let id ← onGraph (FlowGraph.add handle { line, signature })
  placeLabels id
  if let some previous := (← get).current then
    onGraph (FlowGraph.registerEdge previous id 0)
  modify ({ · with current := some id })
  return id

def currentId : Update Recording NodeId := do
  match (← get).current with
  | some id => return id
  | none => throw .noCurrentInstruction

def requireBranch (id : NodeId) (branch : Nat) : Update Recording Unit := do
  if maxBranch < branch then
    match (← get).graph.handle? id with
    | some handle => throw (.branchOutOfRange handle branch)
    | none => throw (.unknownInstruction id)

def addJump (target : Label) (branch : Nat) : Update Recording Unit := do
  let source ← currentId
  requireBranch source branch
  modify fun r ↦ { r with jumps := r.jumps.push { source, target, branch } }

def readProbe (probe : Nat) : Update Recording Bool := do
  match (← get).probes with
  | none => return false
  | some probes =>
    match probes[probe]? with
    | some fired => return fired
    | none => throw (.probeOutOfBounds probe probes.size)

def addProbe (probe branch : Nat) : Update Recording Unit := do
  let id ← currentId
  requireBranch id branch
  let fired ← readProbe probe
  modify fun r ↦ { r with graph := r.graph.modifyNode id ({ · with probe := some probe }) }
  onGraph (FlowGraph.register id fired branch)

def accept (event : Event) : Update Recording Unit := do
  if (← get).ended then
    throw (.afterEnd event)
  match event with
  | .line number => setLine number
  | .label label successor => addLabel label successor
  | .instruction handle signature => discard (addInstruction handle signature)
  | .jump target branch => addJump target branch
  | .probe probe branch => addProbe probe branch
  | .noSuccessor => breakFlow
  | .endMethod => modify ({ · with ended := true })

/-- Takes all events of a method, the last of which has to end it. -/
def consume (events : List Event) : Update Recording Unit := do
  events.forM accept
  unless (← get).ended do
    throw (.unterminated events.length)

/-- Registers a jump, its label now being known to mark an instruction or not. -/
def wire (places : Std.ExtTreeMap Label NodeId) (j : Jump) : Update FlowGraph Unit :=
  match places[j.target]? with
  | some target => FlowGraph.registerEdge j.source target j.branch
  | none => throw (.unresolvedLabel j.target)

def finish (r : Recording) : Except Fault FlowGraph :=
  match (r.jumps.toList.forM (wire r.places)).run r.graph with
  | .ok _ g => .ok { g with jumps := r.jumps }
  | .error e _ => .error e

end Recording

/-- The graph of a complete event stream. -/
def FlowGraph.ofEvents (probes : Option (Array Bool)) (events : List Event) :
    Except Fault FlowGraph :=
  match (Recording.consume events).run { probes } with
  | .ok _ r => r.finish
  | .error e _ => .error e

end ProbeCoverage
