import ProbeCoverage.Proofs.ReportSums
import ProbeCoverage.Proofs.Retargeting
import ProbeCoverage.Proofs.Wiring

/-!
# Branches that are counted

No instruction of a graph has more branches covered than were registered on it. What is reported
counts no branch more than were registered on the instructions merged into it, or than it was given
targets; so all that is reported counts at most the registered branches and the targets.
-/

namespace ProbeCoverage

namespace Node

/-- The node has at most `k` branches, and at most `k` covered. -/
structure BranchesWithin (n : Node) (k : Nat) : Prop where
  branches : n.branches ≤ k
  covered : n.covered.size ≤ k

variable {n m : Node} {k j : Nat}

theorem BranchesWithin.mono (h : n.BranchesWithin k) (hle : k ≤ j) : n.BranchesWithin j :=
  ⟨Nat.le_trans h.branches hle, Nat.le_trans h.covered hle⟩

theorem BranchesWithin.items_branchCounter_le (h : n.BranchesWithin k) :
    n.branchCounter.items ≤ k := by
  have hbranches := h.branches
  have hcovered := h.covered
  rw [branchCounter]
  split
  · exact Nat.zero_le k
  · simp only [Counter.items]
    omega

theorem BranchesWithin.merge (h : n.BranchesWithin k) (h' : m.BranchesWithin j) :
    (n.merge m).BranchesWithin (k + j) where
  branches := Nat.le_trans h'.branches (Nat.le_add_left j k)
  covered := Nat.le_trans (BranchSet.size_union_le _ _) (Nat.add_le_add h.covered h'.covered)

theorem BranchesWithin.foldl_merge {ms : List Node} (h : n.BranchesWithin k)
    (hms : ∀ m ∈ ms, m.BranchesWithin m.branches) :
    (ms.foldl Node.merge n).BranchesWithin (k + (ms.map Node.branches).sum) := by
  induction ms generalizing n k with
  | nil => exact h
  | cons m ms ih =>
    rw [List.map_cons, List.sum_cons, ← Nat.add_assoc]
    exact ih (h.merge (hms m List.mem_cons_self)) fun m' hm' ↦ hms m' (List.mem_cons_of_mem m hm')

theorem branchesWithin_retarget (n : Node) (targets : List Node) :
    (n.retarget targets).BranchesWithin targets.length where
  branches := Nat.min_le_left _ _
  covered := by
    have hle : (n.retarget targets).covered.size ≤ (List.range targets.length).length := by
      refine BranchSet.size_le_length fun i hi ↦ ?_
      obtain ⟨t, ht, -⟩ := mem_covered_retarget.mp hi
      exact List.mem_range.mpr (List.getElem?_eq_some_iff.mp ht).1
    rwa [List.length_range] at hle

end Node

/-! ## Graphs of streams -/

namespace Stream

variable {probes : Option (Array Bool)} {es : List Event}

/-- All branches that are registered, those of jumps last. -/
def allRegistered (es : List Event) : List Branch :=
  registered es ++ (jumps es).map fun j ↦ ⟨j.source, j.branch⟩

theorem mem_allRegistered_of_executed {b : Branch}
    (h : Executed (· ∈ edges es) (Fired probes es) b) : b ∈ allRegistered es := by
  cases h with
  | fired hfired =>
    obtain ⟨i, hmem, -⟩ := hfired
    obtain ⟨⟨c, e⟩, hsite, he⟩ := List.mem_filterMap.mp hmem
    refine List.mem_append_left _ (List.mem_filterMap.mpr ⟨(c, e), hsite, ?_⟩)
    cases e with
    | probe p branch =>
      obtain ⟨id, hid, hb⟩ := Option.map_eq_some_iff.mp he
      cases hb
      exact Option.map_eq_some_iff.mpr ⟨id, hid, rfl⟩
    | _ => cases he
  | @edge e i he _ =>
    rcases List.mem_append.mp he with hfall | hjump
    · obtain ⟨⟨c, f⟩, hsite, hf⟩ := List.mem_filterMap.mp hfall
      refine List.mem_append_left _ (List.mem_filterMap.mpr ⟨(c, f), hsite, ?_⟩)
      cases f with
      | instruction handle signature =>
        obtain ⟨previous, hprevious, rfl⟩ := Option.map_eq_some_iff.mp hf
        exact Option.map_eq_some_iff.mpr ⟨previous, hprevious, rfl⟩
      | _ => cases hf
    · obtain ⟨j, hj, hedge⟩ := List.mem_filterMap.mp hjump
      obtain ⟨target, -, rfl⟩ := Option.map_eq_some_iff.mp hedge
      exact List.mem_append_right _ (List.mem_map.mpr ⟨j, hj, rfl⟩)

end Stream

namespace FlowGraph

variable {probes : Option (Array Bool)} {es : List Event} {g : FlowGraph} {id : NodeId} {n : Node}

/-- Of the branches registered on an instruction, no more are different than it has. -/
theorem size_le_branches (h : FlowGraph.ofEvents probes es = .ok g) (hn : g.node? id = some n)
    {s : BranchSet} (hs : ∀ i ∈ s, ⟨id, i⟩ ∈ Stream.allRegistered es) : s.size ≤ n.branches := by
  have hid : id < g.nodes.size := (Array.getElem?_eq_some_iff.mp hn).1
  have hbranches : n.branches = (Stream.allRegistered es).countP (·.node = id) := by
    have hget := (wired_ofEvents h).branches id hid
    have hnode : g.nodes[id]? = some n := hn
    rw [Array.getElem?_map, hnode] at hget
    exact Option.some.inj hget
  have hle : s.size ≤
      (((Stream.allRegistered es).filter (·.node = id)).map Branch.index).length := by
    refine BranchSet.size_le_length fun i hi ↦ ?_
    exact List.mem_map.mpr ⟨⟨id, i⟩, List.mem_filter.mpr ⟨hs i hi, by simp⟩, rfl⟩
  rwa [List.length_map, ← List.countP_eq_length_filter, ← hbranches] at hle

theorem mem_allRegistered_of_mem_covered (h : FlowGraph.ofEvents probes es = .ok g)
    (hn : g.node? id = some n) {i : Nat} (hi : i ∈ n.covered) :
    ⟨id, i⟩ ∈ Stream.allRegistered es :=
  Stream.mem_allRegistered_of_executed (executed_of_mem_covered h hn hi)

/-- No instruction has more branches covered than it has. -/
theorem size_covered_le (h : FlowGraph.ofEvents probes es = .ok g) (hn : g.node? id = some n) :
    n.covered.size ≤ n.branches :=
  size_le_branches h hn fun _ ↦ mem_allRegistered_of_mem_covered h hn

theorem branchesWithin_ofEvents (h : FlowGraph.ofEvents probes es = .ok g)
    (hn : g.node? id = some n) : n.BranchesWithin n.branches :=
  ⟨Nat.le_refl _, size_covered_le h hn⟩

theorem branchTotal_foldl_connect_le (nodes : Array Node) (edges : List Edge) :
    branchTotal (edges.foldl connect nodes) ≤ branchTotal nodes + edges.length := by
  induction edges generalizing nodes with
  | nil => exact Nat.le_refl _
  | cons e edges ih =>
    have hconnect := branchTotal_connect nodes e
    have hrest := ih (connect nodes e)
    rw [List.foldl_cons, List.length_cons]
    omega

/-- An event registers one branch at most. -/
theorem branchTotal_ofEvents_le (h : FlowGraph.ofEvents probes es = .ok g) :
    branchTotal g.nodes ≤ es.length := by
  have hdemand := Recording.branchDemand_ofStream probes es
  have hjumps : (Recording.ofStream probes es).jumps.size = (Stream.jumps es).length := by
    rw [← (reads_ofStream probes es).jumps, Array.length_toList]
  have hedges := List.length_filterMap_le (Stream.edgeOf? es) (Stream.jumps es)
  rw [(FlowGraph.ofEvents_eq_ok h).2.2]
  refine Nat.le_trans (branchTotal_foldl_connect_le _ _) ?_
  rw [Recording.branchDemand] at hdemand
  omega

theorem size_ofEvents_le (h : FlowGraph.ofEvents probes es = .ok g) : g.size ≤ es.length := by
  rw [size, size_ofEvents h, Stream.count_cursor]
  exact List.length_filterMap_le _ _

end FlowGraph

/-! ## What is reported -/

namespace Selection

variable {g : FlowGraph} {s : Selection} {ds : List Decision} {id rep : NodeId} {n : Node}

def branchesAt (g : FlowGraph) (id : NodeId) : Nat := ((g.node? id).getD {}).branches

/-- The branches registered on the instructions that `rep` stands for. -/
def classBranches (g : FlowGraph) (s : Selection) (rep : NodeId) : Nat :=
  (((List.range g.size).filter (s.root · = rep)).map (branchesAt g)).sum

/-- The number of targets that a decision names, the unknown ones included. -/
def named : Decision → Nat
  | .retarget _ targets => targets.length
  | _ => 0

/-- The number of targets that all replacements name. -/
def namedTargets (ds : List Decision) : Nat := (ds.map named).sum

def source? (g : FlowGraph) : Decision → Option NodeId
  | .retarget source _ => g.id? source
  | _ => none

/-- The targets named in all replacements for `source`. -/
def namedAt (g : FlowGraph) (ds : List Decision) (source : NodeId) : Nat :=
  ((ds.filter (source? g · = some source)).map named).sum

theorem sum_map_branchesAt (g : FlowGraph) :
    ((List.range g.size).map (branchesAt g)).sum = branchTotal g.nodes := by
  have hmap : (List.range g.size).map (branchesAt g) = g.nodes.toList.map Node.branches := by
    refine List.ext_getElem (by simp [FlowGraph.size]) fun i hi hi' ↦ ?_
    have hlt : i < g.nodes.size := by simpa using hi'
    simp [branchesAt, FlowGraph.node?, hlt]
  rw [hmap, branchTotal, Array.toList_map]

/-- Classes have no instruction in common. -/
theorem sum_classBranches_le (g : FlowGraph) (s : Selection) {reps : List NodeId}
    (hreps : reps.Nodup) : (reps.map (s.classBranches g)).sum ≤ branchTotal g.nodes := by
  rw [← sum_map_branchesAt]
  have hfibers := sum_fibers hreps s.root (branchesAt g) (p := (s.root · ∈ reps))
    (l := List.range g.size) fun _ _ ↦ decide_eq_true_iff
  exact Nat.le_trans (Nat.le_of_eq hfibers) (sum_map_filter_le _ _ _)

theorem sum_namedAt_le (g : FlowGraph) (ds : List Decision) {sources : List NodeId}
    (hsources : sources.Nodup) : (sources.map (namedAt g ds)).sum ≤ namedTargets ds := by
  have hkeys : (sources.map some).Nodup :=
    List.pairwise_map.mpr (hsources.imp fun hne h ↦ hne (Option.some.inj h))
  have hfibers := sum_fibers hkeys (source? g) named (p := (source? g · ∈ sources.map some))
    (l := ds) fun _ _ ↦ decide_eq_true_iff
  rw [List.map_map] at hfibers
  exact Nat.le_trans (Nat.le_of_eq hfibers) (sum_map_filter_le _ _ _)

theorem length_le_namedAt {targets : List NodeId} (h : lastTargets? g ds id = some targets) :
    targets.length ≤ namedAt g ds id := by
  obtain ⟨d, hd, htargets⟩ := List.mem_filterMap.mp (List.mem_of_getLast? h)
  cases d with
  | retarget source handles =>
    rw [targetsOf?] at htargets
    split at htargets
    next hsource =>
      cases htargets
      refine Nat.le_trans (List.length_filterMap_le _ _) (List.le_sum_of_mem ?_)
      exact List.mem_map.mpr ⟨.retarget source handles,
        List.mem_filter.mpr ⟨hd, decide_eq_true hsource⟩, rfl⟩
    next => cases htargets
  | _ => cases htargets

theorem lt_size_of_mem_followers (hknown : ∀ handle id, g.id? handle = some id → id < g.size)
    (hrep : (ofDecisions g ds).root rep = rep) (hid : id ∈ (ofDecisions g ds).followers rep) :
    id < g.size := by
  obtain ⟨hclass, hne⟩ := (mem_followers_ofDecisions hrep).mp hid
  exact ((hclass.eq_or_lt hknown).resolve_left hne).1

/-- An instruction and those merged into it are in its class, each of them once. -/
theorem subperm_class (hknown : ∀ handle id, g.id? handle = some id → id < g.size)
    (hrep : (ofDecisions g ds).root rep = rep) (hlt : rep < g.size) :
    (rep :: (ofDecisions g ds).followers rep).Subperm
      ((List.range g.size).filter ((ofDecisions g ds).root · = rep)) := by
  have hmem : ∀ id, id ∈ (ofDecisions g ds).followers rep → SameClass g ds id rep ∧ id ≠ rep :=
    fun _ ↦ (mem_followers_ofDecisions hrep).mp
  have hnodup : (rep :: (ofDecisions g ds).followers rep).Nodup :=
    List.nodup_cons.mpr ⟨fun h ↦ (hmem rep h).2 rfl, (pairwise_followers _ rep).imp Nat.ne_of_lt⟩
  refine hnodup.subperm fun id hid ↦ ?_
  rw [List.mem_filter, List.mem_range, decide_eq_true_eq]
  rcases List.mem_cons.mp hid with rfl | hid
  · exact ⟨hlt, hrep⟩
  · exact ⟨lt_size_of_mem_followers hknown hrep hid,
      (root_ofDecisions_eq_iff.mpr (hmem id hid).1).trans hrep⟩

/-- A merged instruction counts no more than the branches of its class. -/
theorem branchesWithin_unite (hnodes : ∀ id n, g.node? id = some n → n.BranchesWithin n.branches)
    (hknown : ∀ handle id, g.id? handle = some id → id < g.size)
    (hrep : (ofDecisions g ds).root rep = rep) (hn : g.node? rep = some n) :
    ((ofDecisions g ds).unite g rep n).BranchesWithin ((ofDecisions g ds).classBranches g rep) := by
  have hfound : ((ofDecisions g ds).followers rep).filterMap g.node? =
      ((ofDecisions g ds).followers rep).map fun id ↦ (g.node? id).getD {} :=
    filterMap_eq_map_getD fun id hid ↦
      ⟨_, Array.getElem?_eq_getElem (lt_size_of_mem_followers hknown hrep hid)⟩
  have hmembers : ∀ m ∈ ((ofDecisions g ds).followers rep).filterMap g.node?,
      m.BranchesWithin m.branches := fun m hm ↦ by
    obtain ⟨id, -, hid⟩ := List.mem_filterMap.mp hm
    exact hnodes id m hid
  refine ((hnodes rep n hn).foldl_merge hmembers).mono ?_
  have hbranches : n.branches = branchesAt g rep := by rw [branchesAt, hn, Option.getD_some]
  obtain ⟨l, hperm, hsub⟩ := subperm_class hknown hrep (Array.getElem?_eq_some_iff.mp hn).1
  rw [hfound, List.map_map, hbranches]
  calc branchesAt g rep + (((ofDecisions g ds).followers rep).map (branchesAt g)).sum
      = (l.map (branchesAt g)).sum := ((hperm.map (branchesAt g)).sum_eq).symm
    _ ≤ (ofDecisions g ds).classBranches g rep :=
        (hsub.map (branchesAt g)).sum_le_sum fun _ _ ↦ Nat.zero_le _

/-- A replacement counts no more branches than it names targets. -/
theorem branchesWithin_revised
    (hnodes : ∀ id n, g.node? id = some n → n.BranchesWithin n.branches)
    (hknown : ∀ handle id, g.id? handle = some id → id < g.size)
    (hid : id ∈ (ofDecisions g ds).counted g)
    (hn : current g ((ofDecisions g ds).revised g) id = some n) :
    n.BranchesWithin ((ofDecisions g ds).classBranches g id + namedAt g ds id) := by
  have hrooted := rooted_ofDecisions g ds
  obtain ⟨hlt, hroot, -⟩ := hrooted.mem_counted_iff.mp hid
  have hmerged := hrooted.current_merged hroot (Array.getElem?_eq_getElem hlt)
  cases htargets : lastTargets? g ds id with
  | none =>
    rw [current_revised_of_none htargets, hmerged] at hn
    cases hn
    exact (branchesWithin_unite hnodes hknown hroot (Array.getElem?_eq_getElem hlt)).mono
      (Nat.le_add_right _ _)
  | some targets =>
    rw [current_revised_of_some htargets, hmerged] at hn
    cases hn
    refine (Node.branchesWithin_retarget _ _).mono ?_
    exact Nat.le_trans (List.length_filterMap_le _ _)
      (Nat.le_trans (length_le_namedAt htargets) (Nat.le_add_left _ _))

/-- All that is reported counts at most the branches that were registered and the targets that were
named. -/
theorem sum_branchCounter_le
    (hnodes : ∀ id n, g.node? id = some n → n.BranchesWithin n.branches)
    (hknown : ∀ handle id, g.id? handle = some id → id < g.size) (ds : List Decision) :
    (((ofDecisions g ds).reported g).map (·.branchCounter.items)).sum ≤
      branchTotal g.nodes + namedTargets ds := by
  have hnodup : ((ofDecisions g ds).counted g).Nodup :=
    (pairwise_counted g _).imp Nat.ne_of_lt
  have hitems : List.Forall₂ (fun id n ↦ n.branchCounter.items ≤
      (ofDecisions g ds).classBranches g id + namedAt g ds id)
      ((ofDecisions g ds).counted g) ((ofDecisions g ds).reported g) :=
    ((List.forall₂_and_left ..).mpr ⟨fun _ hid ↦ hid, forall₂_reported g _⟩).imp fun _ _ h ↦
      (branchesWithin_revised hnodes hknown h.1 h.2).items_branchCounter_le
  calc (((ofDecisions g ds).reported g).map (·.branchCounter.items)).sum
      ≤ (((ofDecisions g ds).counted g).map fun id ↦
          (ofDecisions g ds).classBranches g id + namedAt g ds id).sum :=
        (List.forall₂_map_left_iff.mpr (List.forall₂_map_right_iff.mpr hitems.flip)).sum_le_sum
    _ = (((ofDecisions g ds).counted g).map ((ofDecisions g ds).classBranches g)).sum +
          (((ofDecisions g ds).counted g).map (namedAt g ds)).sum := List.sum_map_add
    _ ≤ branchTotal g.nodes + namedTargets ds :=
        Nat.add_le_add (sum_classBranches_le g _ hnodup) (sum_namedAt_le g ds hnodup)

theorem length_reported_le (g : FlowGraph) (s : Selection) : (s.reported g).length ≤ g.size := by
  rw [← (forall₂_reported g s).length_eq]
  exact Nat.le_trans (List.length_filter_le _ _) (Nat.le_of_eq List.length_range)

end Selection

end ProbeCoverage
