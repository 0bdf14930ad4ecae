import Mathlib.Algebra.Order.BigOperators.Group.List
import Mathlib.Algebra.Order.Ring.Nat
import ProbeCoverage.Proofs.Recording

/-!
# How many branches are registered

A registration counts one branch of one instruction, and an event asks for one registration at
most: that of falling through, of a probe, or of a jump. While there are fewer events than a count
can hold, every instruction has room for another branch. An instruction without room is not given
one, so in every graph the counts fit.
-/

namespace ProbeCoverage

def branchTotal (nodes : Array Node) : Nat := (nodes.map Node.branches).toList.sum

theorem branches_le_total {nodes : Array Node} {n : Node} (h : n ∈ nodes) :
    n.branches ≤ branchTotal nodes := by
  refine List.single_le_sum (fun _ _ ↦ Nat.zero_le _) _ ?_
  rw [Array.toList_map]
  exact List.mem_map_of_mem (Array.mem_def.mp h)

theorem room_of_total {nodes : Array Node} {id : NodeId} (hid : id < nodes.size)
    (h : branchTotal nodes + 1 < countBound) : Room nodes id := by
  refine ⟨nodes[id], Array.getElem?_eq_getElem hid, ?_⟩
  have hle := branches_le_total (Array.getElem_mem hid)
  omega

theorem sum_modify_succ (l : List Nat) (i : Nat) : (l.modify i (· + 1)).sum ≤ l.sum + 1 := by
  induction l generalizing i with
  | nil => simp
  | cons a l ih =>
    rw [List.modify_cons]
    split
    · simp only [List.sum_cons]
      omega
    · have := ih (i - 1)
      simp only [List.sum_cons]
      omega

theorem branchTotal_addBranch (nodes : Array Node) (id : NodeId) :
    branchTotal (addBranch nodes id) ≤ branchTotal nodes + 1 := by
  rw [branchTotal, branches_addBranch, Array.toList_modify]
  exact sum_modify_succ _ id

theorem branchTotal_spreadIf (taken : Bool) (nodes : Array Node) (b : Branch) :
    branchTotal (spreadIf taken nodes b) = branchTotal nodes := by
  rw [branchTotal, map_spreadIf fun _ ↦ rfl, branchTotal]

theorem branchTotal_modify {f : Node → Node} (h : ∀ n, (f n).branches = n.branches)
    (nodes : Array Node) (id : NodeId) : branchTotal (nodes.modify id f) = branchTotal nodes := by
  rw [branchTotal, Static.map_modify h, branchTotal]

theorem branchTotal_push {n : Node} (h : n.branches = 0) (nodes : Array Node) :
    branchTotal (nodes.push n) = branchTotal nodes := by
  simp [branchTotal, h]

theorem branchTotal_direct (nodes : Array Node) (b : Branch) (fired : Bool) :
    branchTotal (direct nodes b fired) ≤ branchTotal nodes + 1 := by
  rw [direct, branchTotal_spreadIf]
  exact branchTotal_addBranch nodes b.node

theorem branchTotal_connect (nodes : Array Node) (e : Edge) :
    branchTotal (connect nodes e) ≤ branchTotal nodes + 1 := by
  rw [connect, branchTotal_spreadIf, attach,
    branchTotal_modify (f := fun n ↦ { n with link := some e.via }) fun _ ↦ rfl]
  exact branchTotal_addBranch nodes e.via.node

@[simp] theorem size_connect (nodes : Array Node) (e : Edge) :
    (connect nodes e).size = nodes.size :=
  Static.size_eq (static_signature.map_connect nodes e)

namespace Recording

/-- The branches that a recording has registered, and those that its jumps ask for. -/
def branchDemand (r : Recording) : Nat := branchTotal r.graph.nodes + r.jumps.size

theorem branchTotal_fresh (r : Recording) (signature : Option String) :
    branchTotal (r.fresh signature) = branchTotal r.graph.nodes :=
  branchTotal_push rfl r.graph.nodes

theorem branchTotal_entered (r : Recording) (signature : Option String) :
    branchTotal (r.entered signature) ≤ branchTotal r.graph.nodes + 1 := by
  rw [← branchTotal_fresh r signature, entered]
  split
  next => exact branchTotal_connect _ _
  next => exact Nat.le_succ _

theorem branchDemand_step (r : Recording) (e : Event) :
    (r.step e).branchDemand ≤ r.branchDemand + 1 := by
  cases e with
  | instruction handle signature =>
    have hle := branchTotal_entered r signature
    change branchTotal (r.entered signature) + r.jumps.size ≤ _
    rw [branchDemand]
    omega
  | jump target branch =>
    cases hc : r.current with
    | none => simp [step, hc]
    | some source => simp [step, hc, branchDemand, Nat.add_assoc]
  | probe probe branch =>
    cases hc : r.current with
    | none => simp [step, hc]
    | some id =>
      have hle := branchTotal_direct (stamp r.graph.nodes id probe) ⟨id, branch⟩
        (fires r.probes probe)
      have hstamp : branchTotal (stamp r.graph.nodes id probe) = branchTotal r.graph.nodes :=
        branchTotal_modify (f := ({ · with probe := some probe })) (fun _ ↦ rfl) _ _
      rw [hstamp] at hle
      simp only [step, hc]
      change branchTotal (direct _ _ _) + r.jumps.size ≤ branchTotal r.graph.nodes + _ + 1
      omega
  | line number => exact Nat.le_succ _
  | label label successor => exact Nat.le_succ _
  | noSuccessor => exact Nat.le_succ _
  | endMethod => exact Nat.le_succ _

/-- A stream asks for one branch per event at most. -/
theorem branchDemand_ofStream (probes : Option (Array Bool)) (es : List Event) :
    (ofStream probes es).branchDemand ≤ es.length := by
  induction es using List.reverseRecOn with
  | nil => simp [ofStream, branchDemand, branchTotal]
  | append_singleton es e ih =>
    rw [ofStream_append, List.length_append, List.length_singleton]
    exact Nat.le_trans (branchDemand_step _ e) (Nat.succ_le_succ ih)

end Recording

/-! ## Counts of branches fit -/

/-- All counts of branches fit a counter. -/
def CountsFit (nodes : Array Node) : Prop := ∀ k ∈ nodes.map Node.branches, k < countBound

namespace CountsFit

variable {nodes nodes' : Array Node}

theorem of_room (h : CountsFit nodes) {id : NodeId} (hroom : Room nodes id)
    (hbranches : nodes'.map Node.branches = (nodes.map Node.branches).modify id (· + 1)) :
    CountsFit nodes' := by
  intro k hk
  obtain ⟨i, hi⟩ := Array.getElem?_of_mem (hbranches ▸ hk)
  rw [Array.getElem?_modify] at hi
  split at hi
  next heq =>
    obtain ⟨n, hn, hlt⟩ := hroom
    rw [← heq, Array.getElem?_map, hn] at hi
    cases hi
    exact hlt
  next => exact h k (Array.mem_of_getElem? hi)

theorem push (h : CountsFit nodes) {n : Node} (hn : n.branches = 0) :
    CountsFit (nodes.push n) := by
  intro k hk
  rw [Array.map_push, Array.mem_push] at hk
  rcases hk with hk | rfl
  · exact h k hk
  · rw [hn]
    decide

theorem foldl_connect {edges : List Edge} (h : CountsFit nodes)
    (hedges : Recording.Connectable nodes edges) : CountsFit (edges.foldl connect nodes) := by
  induction edges generalizing nodes with
  | nil => exact h
  | cons e edges ih =>
    obtain ⟨hroom, -, hrest⟩ := hedges
    exact ih (h.of_room hroom (branches_connect nodes e)) hrest

/-- An event is taken only if the branch it registers can be counted. -/
theorem step {r : Recording} (h : CountsFit r.graph.nodes) {e : Event} (hadm : r.Admits e) :
    CountsFit (r.step e).graph.nodes := by
  cases e with
  | line number => exact h
  | label label successor => exact h
  | noSuccessor => exact h
  | endMethod => exact h
  | jump target branch =>
    obtain ⟨id, hcurrent, -⟩ := hadm
    simpa only [Recording.step, hcurrent] using h
  | instruction handle signature =>
    have hfresh : CountsFit (r.fresh signature) := h.push rfl
    change CountsFit (r.entered signature)
    rw [Recording.entered]
    split
    next previous hcurrent =>
      exact hfresh.of_room (hadm.2 previous hcurrent) (branches_connect _ _)
    next => exact hfresh
  | probe probe branch =>
    obtain ⟨id, hcurrent, -, -, hroom⟩ := hadm
    simp only [Recording.step, hcurrent]
    refine h.of_room hroom ((branches_direct _ _ _).trans ?_)
    rw [stamp, Static.map_modify (g := ({ · with probe := some probe })) fun _ ↦ rfl]

theorem ofStream {probes : Option (Array Bool)} {es : List Event}
    (h : Recording.Admitted { probes } es) :
    CountsFit (Recording.ofStream probes es).graph.nodes := by
  induction es using List.reverseRecOn with
  | nil => exact fun k hk ↦ by simp [Recording.ofStream] at hk
  | append_singleton es e ih =>
    obtain ⟨hes, -, he⟩ := Recording.admitted_append.mp h
    rw [Recording.ofStream_append]
    exact (ih hes).step he

end CountsFit

theorem FlowGraph.branches_lt_countBound {probes : Option (Array Bool)} {es : List Event}
    {g : FlowGraph} (h : FlowGraph.ofEvents probes es = .ok g) {id : NodeId} {n : Node}
    (hn : g.node? id = some n) : n.branches < countBound := by
  obtain ⟨hadm, -, edges, -, hedges, rfl⟩ := FlowGraph.ofEvents_eq_ok_iff.mp h
  exact (CountsFit.ofStream hadm).foldl_connect hedges n.branches
    (Array.mem_map_of_mem (Array.mem_of_getElem? hn))

end ProbeCoverage
