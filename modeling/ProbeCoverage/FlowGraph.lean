import ProbeCoverage.Node
import ProbeCoverage.Update

/-!
# Flow graphs

The instructions of a method in their order, each with the branches registered on it. A branch that
was taken covers its node; a node that becomes covered passes that on to the branch that leads to
it, and so backwards until a node that was covered already.
-/

namespace ProbeCoverage

/-- A jump whose target is still a label. -/
structure Jump where
  source : NodeId
  target : Label
  branch : Nat
deriving DecidableEq

structure FlowGraph where
  nodes : Array Node := #[]
  handles : Array Handle := #[]
  ids : Std.ExtTreeMap Handle NodeId := ∅
  jumps : Array Jump := #[]
deriving DecidableEq

/-- Marks `b` as taken. If its node was uncovered, the walk goes on with the branch that leads to
the node, which is returned. -/
def mark (nodes : Array Node) (b : Branch) : Array Node × Option Branch :=
  match nodes[b.node]? with
  | some n =>
    let next := if n.isCovered then none else n.link
    (nodes.setIfInBounds b.node (n.cover b.index), next)
  | none => (nodes, none)

def uncovered (nodes : Array Node) : Nat := nodes.countP (!·.isCovered)

theorem uncovered_mark_lt {nodes : Array Node} {b c : Branch} (h : (mark nodes b).2 = some c) :
    uncovered (mark nodes b).1 < uncovered nodes := by
  unfold mark at h ⊢
  split at h
  next n hn =>
    obtain ⟨hb, hget⟩ := Array.getElem?_eq_some_iff.mp hn
    have hunc : n.isCovered = false := by
      cases hc : n.isCovered with
      | false => rfl
      | true => simp [hc] at h
    have hpos : 0 < nodes.countP (!·.isCovered) :=
      Array.countP_pos_iff.mpr ⟨n, Array.mem_of_getElem hget, by simp [hunc]⟩
    simp only [uncovered, Array.setIfInBounds, hb, dite_true, Array.countP_set, hget, hunc,
      Node.isCovered_cover, Bool.not_false, Bool.not_true, Bool.false_eq_true, if_true, if_false]
    omega
  next => simp at h

/-- Follows a taken branch backwards, marking as it goes. -/
def spread (nodes : Array Node) (b : Branch) : Array Node :=
  match _h : mark nodes b with
  | (marked, none) => marked
  | (marked, some c) => spread marked c
termination_by uncovered nodes
decreasing_by
  have hlt := @uncovered_mark_lt nodes b c
  rw [_h] at hlt
  exact hlt rfl

namespace FlowGraph

def size (g : FlowGraph) : Nat := g.nodes.size

def id? (g : FlowGraph) (handle : Handle) : Option NodeId := g.ids[handle]?

def handle? (g : FlowGraph) (id : NodeId) : Option Handle := g.handles[id]?

def node? (g : FlowGraph) (id : NodeId) : Option Node := g.nodes[id]?

def get? (g : FlowGraph) (handle : Handle) : Option Node := (g.id? handle).bind g.node?

def countCovered (g : FlowGraph) : Nat := g.nodes.countP (·.isCovered)

def isCovered (g : FlowGraph) (id : NodeId) : Bool := (g.node? id).any (·.isCovered)

def modifyNode (g : FlowGraph) (id : NodeId) (f : Node → Node) : FlowGraph :=
  { g with nodes := g.nodes.modify id f }

def add (handle : Handle) (node : Node) : Update FlowGraph NodeId := fun g ↦
  if handle ∈ g.ids then .error (.duplicateInstruction handle) g
  else
    let id := g.nodes.size
    .ok id { g with
      nodes := g.nodes.push node
      handles := g.handles.push handle
      ids := g.ids.insert handle id }

def countBranch (id : NodeId) : Update FlowGraph Unit := fun g ↦
  match g.nodes[id]? with
  | none => .error (.unknownInstruction id) g
  | some n =>
    match addBelow countBound n.branches 1 with
    | .ok k => .ok () (g.modifyNode id ({ · with branches := k }))
    | .error e => .error e g

def spreadFrom (b : Branch) : Update FlowGraph Unit :=
  modify fun g ↦ { g with nodes := spread g.nodes b }

def register (id : NodeId) (taken : Bool) (branch : Nat) : Update FlowGraph Unit := do
  countBranch id
  if taken then
    spreadFrom ⟨id, branch⟩

def requireId (id : NodeId) : Update FlowGraph Unit := do
  unless id < (← get).size do
    throw (.unknownInstruction id)

/-- Registers a branch of `source` that leads to `target`. It is taken if `target` is covered
already, or once it becomes covered. But a target has one link, which a later edge into it takes
over: of the edges into a target still uncovered, only the last is followed back. -/
def registerEdge (source target : NodeId) (branch : Nat) : Update FlowGraph Unit := do
  requireId source
  requireId target
  countBranch source
  modify (·.modifyNode target ({ · with link := some ⟨source, branch⟩ }))
  if (← get).isCovered target then
    spreadFrom ⟨source, branch⟩

end FlowGraph

end ProbeCoverage
