import ProbeCoverage.Proofs.BranchCounts
import ProbeCoverage.Proofs.PerfectMatch

/-!
# Branches after merges

A merge unites the branches taken in two runs and leaves the number of branches alone, whatever the
previous run says about it. So after merges an instruction can have more branches covered than it
has: exactly if too many different ones were taken, which runs of the same code never do. Its
branches are then counted as all covered, and there are as many of them as were taken.
-/

namespace ProbeCoverage

theorem Node.total_branchCounter {n : Node} (hbranches : n.branches < countBound)
    (hcovered : n.covered.size < countBound) : n.branchCounter.total =
      .ok (if n.branches < 2 then 0 else max n.branches n.covered.size) := by
  rw [Counter.total_eq_ok_iff, branchCounter]
  split
  · exact ⟨rfl, by decide⟩
  · simp only [Counter.items]
    omega

/-! ## What merges leave of an instruction -/

/-- The imprint, if there is one, is that of an accepted stream. -/
def MergeStep.Recorded (s : MergeStep) : Prop :=
  ∀ m, s.imprint = some m →
    ∃ probes es g, FlowGraph.ofEvents probes es = .ok g ∧ g.imprint? = some m

/-- Branch `i` was taken on `n`, or in a run that was merged, on the instruction of the same
signature. -/
def TakenAcross (n : Node) (answered : List (MergeStep × Except Fault MergeOutcome)) (i : Nat) :
    Prop :=
  i ∈ n.covered ∨ ∃ s m prior, (s, .ok .merged) ∈ answered ∧ s.imprint = some m ∧
    n.signature.bind m.get? = some prior ∧ i ∈ prior.covered

namespace MethodRun

variable {className method : String} {run : MethodRun} {steps : List MergeStep}

theorem mem_gain_covered {s : MergeStep} {signature : Option String} {i : Nat} :
    i ∈ (run.gain className method s).covered signature ↔
      (mergeStep className method s).answer run = .ok .merged ∧
        ∃ m prior, s.imprint = some m ∧ signature.bind m.get? = some prior ∧
          i ∈ prior.covered := by
  rw [answer_mergeStep, gain]
  cases hverdict : verdict className method s.imprint s.probes run with
  | error e => simp [Gain.nothing, Except.map]
  | ok v =>
    obtain ⟨outcome, gain⟩ := v
    rcases verdict_cases hverdict with ⟨hout, rfl⟩ |
      ⟨m, spans, fired, hm, -, -, -, -, rfl, rfl⟩
    · simp [Gain.nothing, Except.map, hout]
    · simp only [Except.map, true_and, Gain.ofImprint, hm, Option.some.injEq]
      cases hprior : signature.bind m.get? <;> simp [hprior]

theorem node?_foldl_gather (f : MergeStep → Gain) {id : NodeId} {n : Node}
    (hn : run.graph.node? id = some n) (steps : List MergeStep) :
    ∃ n', (steps.foldl (fun r s ↦ r.gather (f s)) run).graph.node? id = some n' ∧
      n'.outline = n.outline ∧
      ∀ i, i ∈ n'.covered ↔ i ∈ n.covered ∨ ∃ s ∈ steps, i ∈ (f s).covered n.signature := by
  induction steps generalizing run n with
  | nil => exact ⟨n, hn, rfl, fun i ↦ by simp⟩
  | cons s steps ih =>
    have hnext : (run.gather (f s)).graph.node? id = some ((f s).cover n) := by
      have hget : run.graph.nodes[id]? = some n := hn
      simp [gather, Gain.coverAll, FlowGraph.node?, hget]
    obtain ⟨n', hn', hout, hcovered⟩ := ih hnext
    refine ⟨n', hn', hout, fun i ↦ ?_⟩
    rw [hcovered]
    simp [Gain.cover, or_assoc]

theorem mem_zip_mergeAll {s : MergeStep} {answer : Except Fault MergeOutcome} :
    (s, answer) ∈ steps.zip (run.mergeAll className method steps).1 ↔
      s ∈ steps ∧ (mergeStep className method s).answer run = answer := by
  rw [mergeAll_of_sameShape .rfl]
  induction steps with
  | nil => simp
  | cons t steps ih => grind

theorem sameShape_mergeAll (className method : String) (run : MethodRun) (steps : List MergeStep) :
    SameShape (run.mergeAll className method steps).2 run := by
  induction steps generalizing run with
  | nil => exact .rfl
  | cons s steps ih =>
    rw [mergeAll, final_mergeStep]
    exact (ih _).trans (sameShape_gather run _)

/-- An instruction keeps its branches, and its coverage becomes that of all runs. -/
theorem exists_of_node?_mergeAll {id : NodeId} {n' : Node}
    (hn' : (run.mergeAll className method steps).2.graph.node? id = some n') :
    ∃ n, run.graph.node? id = some n ∧ n'.branches = n.branches ∧ ∀ i, i ∈ n'.covered ↔
      TakenAcross n (steps.zip (run.mergeAll className method steps).1) i := by
  obtain ⟨n, hn, -⟩ :=
    getElem?_of_outlines (sameShape_mergeAll className method run steps).nodes hn'
  obtain ⟨m, hm, hout, hcovered⟩ := node?_foldl_gather (run.gain className method) hn steps
  rw [mergeAll_of_sameShape .rfl] at hn'
  obtain rfl : n' = m := Option.some.inj (hn'.symm.trans hm)
  refine ⟨n, hn, (congrArg Node.branches hout :), fun i ↦ ?_⟩
  rw [hcovered, TakenAcross]
  simp only [mem_zip_mergeAll, mem_gain_covered]
  grind

section Streams

variable {probes : Option (Array Bool)} {es : List Event} {g : FlowGraph} {id : NodeId}
  {n n' : Node}

theorem le_maxBranch_of_takenAcross (h : FlowGraph.ofEvents probes es = .ok g)
    (hn : g.node? id = some n) (hsteps : ∀ s ∈ steps, s.Recorded) {i : Nat}
    (hi : TakenAcross n (steps.zip (run.mergeAll className method steps).1) i) :
    i ≤ maxBranch := by
  rcases hi with hi | ⟨s, m, prior, hs, hm, hprior, hi⟩
  · exact FlowGraph.le_maxBranch_of_covered h hn hi
  · obtain ⟨probes', es', g', hg', himprint⟩ := hsteps s (mem_zip_mergeAll.mp hs).1 m hm
    obtain ⟨signature, -, hget⟩ := Option.bind_eq_some_iff.mp hprior
    have hmem := (Imprint.mem_nodes_of_get? himprint hget).1
    obtain ⟨id', hid'⟩ := Array.getElem?_of_mem hmem
    exact FlowGraph.le_maxBranch_of_covered hg' hid' hi

/-- What merges with previous runs leave of the branches of an instruction. As many are counted as
it has or as were taken, whichever is more; so it is covered within its branches exactly if no more
different ones were taken in all runs, and this holds if they all were registered on it. -/
theorem branches_mergeAll (h : FlowGraph.ofEvents probes es = .ok g) (array : Option (Array Bool))
    (className method : String) (hsteps : ∀ s ∈ steps, s.Recorded)
    (hn' : ((⟨g, array⟩ : MethodRun).mergeAll className method steps).2.graph.node? id =
      some n') :
    ∃ n, g.node? id = some n ∧ n.covered.size ≤ n.branches ∧ n'.branches = n.branches ∧
      let taken := TakenAcross n
        (steps.zip ((⟨g, array⟩ : MethodRun).mergeAll className method steps).1)
      (∀ i, i ∈ n'.covered ↔ taken i) ∧
      (n'.covered.size ≤ n'.branches ↔
        ∀ is : List Nat, is.Nodup → (∀ i ∈ is, taken i) → is.length ≤ n.branches) ∧
      ((∀ i, taken i → ⟨id, i⟩ ∈ Stream.allRegistered es) → n'.covered.size ≤ n'.branches) ∧
      n'.branchCounter.total =
        .ok (if n.branches < 2 then 0 else max n.branches n'.covered.size) := by
  obtain ⟨n, hn, hbranches, hcovered⟩ := exists_of_node?_mergeAll hn'
  refine ⟨n, hn, FlowGraph.size_covered_le h hn, hbranches, hcovered, ?_, fun hregistered ↦ ?_, ?_⟩
  · rw [hbranches, BranchSet.size_le_iff]
    simp only [hcovered]
  · rw [hbranches]
    exact FlowGraph.size_le_branches h hn fun i hi ↦ hregistered i ((hcovered i).mp hi)
  · have hsize : n'.covered.size ≤ maxBranch + 1 := BranchSet.size_le_of_forall_le fun i hi ↦
      le_maxBranch_of_takenAcross h hn hsteps ((hcovered i).mp hi)
    have hcount : maxBranch + 1 < countBound := by decide
    have hfits := FlowGraph.branches_lt_countBound h hn
    rw [← hbranches] at hfits ⊢
    exact Node.total_branchCounter hfits (Nat.lt_of_le_of_lt hsize hcount)

/-- A switch with `k` branches, each of which has a probe. -/
def switch (k : Nat) : List Event :=
  .instruction ⟨0⟩ (some "0:SWITCH") :: (List.range k).map (fun i ↦ .probe i i) ++ [.endMethod]

/-- The previous run took a third branch of the switch; the switch has two, and one was taken. -/
theorem branches_mergeAll_switch :
    ∃ g g' n', FlowGraph.ofEvents (some #[true, false]) (switch 2) = .ok g ∧
      FlowGraph.ofEvents (some #[false, false, true]) (switch 3) = .ok g' ∧
      ((⟨g, none⟩ : MethodRun).mergeAll "A" "m" [⟨g'.imprint?, none⟩]).2.graph.node? 0 = some n' ∧
      n'.covered.toList = [0, 2] ∧ n'.covered.size ≤ n'.branches ∧
      n'.branchCounter.total = .ok 2 := by
  have hrun : (do
      let g ← FlowGraph.ofEvents (some #[true, false]) (switch 2)
      let g' ← FlowGraph.ofEvents (some #[false, false, true]) (switch 3)
      let merged := ((⟨g, none⟩ : MethodRun).mergeAll "A" "m" [⟨g'.imprint?, none⟩]).2.graph
      return (merged.node? 0).map fun n : Node ↦ (n.branches, n.covered.toList)) =
        .ok (some (2, [0, 2])) := by
    decide +kernel
  obtain ⟨g, hg, hrun⟩ := bind_eq_ok_iff.mp hrun
  obtain ⟨g', hg', hrun⟩ := bind_eq_ok_iff.mp hrun
  obtain ⟨n', hn', hnode⟩ := Option.map_eq_some_iff.mp (Except.ok.inj hrun)
  obtain ⟨hbranches, hlist⟩ := Prod.mk.inj hnode
  have hsize : n'.covered.size = 2 := congrArg List.length hlist
  have hsteps : ∀ s ∈ [(⟨g'.imprint?, none⟩ : MergeStep)], s.Recorded := fun s hs m hm ↦
    ⟨_, _, g', hg', by rw [List.mem_singleton.mp hs] at hm; exact hm⟩
  obtain ⟨n, -, -, hsame, -, -, -, htotal⟩ := branches_mergeAll hg none "A" "m" hsteps hn'
  refine ⟨g, g', n', hg, hg', hn', hlist, by rw [hsize, hbranches], ?_⟩
  rw [htotal, ← hsame, hbranches, hsize]
  rfl

/-- If both branches were taken, the third one is too many, and it is counted. -/
theorem branches_exceeded_switch :
    (do
      let g ← FlowGraph.ofEvents (some #[true, true]) (switch 2)
      let g' ← FlowGraph.ofEvents (some #[false, false, true]) (switch 3)
      let merged := (⟨g, some #[true, true]⟩ : MethodRun).mergeAll "A" "m"
        [⟨g'.imprint?, some #[false, false, true]⟩]
      return (merged.1, merged.2.graph.nodes.toList.map fun n : Node ↦
        (n.branches, n.covered.toList, n.branchCounter.total))) =
      .ok ([.ok .merged], [(2, [0, 1, 2], .ok 3)]) := by
  decide +kernel

end Streams

/-! ## Merging runs of the same code -/

section Reruns

variable {probes probes' array : Option (Array Bool)} {es : List Event} {g g' : FlowGraph}
  {id id' : NodeId} {n n' prior : Node}

/-- In two runs of code whose signatures are all different, a signature is found at one place. -/
theorem eq_of_signature (h : FlowGraph.ofEvents probes es = .ok g)
    (h' : FlowGraph.ofEvents probes' es = .ok g') (hnodup : (Stream.signatures es).Nodup)
    (hn : g.node? id = some n) (hprior : g'.node? id' = some prior)
    (hsig : n.signature = prior.signature) : id = id' := by
  have hget := FlowGraph.getElem?_signatures hn
  have hget' := FlowGraph.getElem?_signatures hprior
  rw [FlowGraph.signatures_ofEvents h] at hget
  rw [FlowGraph.signatures_ofEvents h', ← hsig] at hget'
  obtain ⟨hlt, -⟩ := List.getElem?_eq_some_iff.mp hget
  exact (List.getElem?_inj hlt hnodup).mp (hget.trans hget'.symm)

/-- If all runs are of the same code, no instruction has more branches covered than it has. -/
theorem size_covered_mergeAll_le (h : FlowGraph.ofEvents probes es = .ok g)
    (hsteps : ∀ s ∈ steps, ∀ m, s.imprint = some m →
      ∃ probes' g', FlowGraph.ofEvents probes' es = .ok g' ∧ g'.imprint? = some m)
    (hn' : ((⟨g, array⟩ : MethodRun).mergeAll className method steps).2.graph.node? id =
      some n') : n'.covered.size ≤ n'.branches := by
  obtain ⟨n, hn, hbranches, hcovered⟩ := exists_of_node?_mergeAll hn'
  rw [hbranches]
  refine FlowGraph.size_le_branches h hn fun i hi ↦ ?_
  rcases (hcovered i).mp hi with hi | ⟨s, m, prior, hs, hm, hprior, hi⟩
  · exact FlowGraph.mem_allRegistered_of_mem_covered h hn hi
  · obtain ⟨hmem, hanswer⟩ := mem_zip_mergeAll.mp hs
    obtain ⟨probes', g', hg', himprint⟩ := hsteps s hmem m hm
    obtain ⟨signature, hsig, hget⟩ := Option.bind_eq_some_iff.mp hprior
    obtain ⟨hnode, hown⟩ := Imprint.mem_nodes_of_get? himprint hget
    obtain ⟨id', hid'⟩ := Array.getElem?_of_mem hnode
    have hnodup : (Stream.signatures es).Nodup := by
      rw [mergeStep, hm] at hanswer
      have hpairs := Imprint.matches_iff_pairs.mp (answer_merge_eq_merged_iff.mp hanswer).1
      rw [← FlowGraph.signatures_ofEvents h]
      exact hpairs.signed.2
    obtain rfl := eq_of_signature h hg' hnodup hn hid' (hsig.trans hown.symm)
    exact FlowGraph.mem_allRegistered_of_mem_covered hg' hid' hi

end Reruns

end MethodRun

end ProbeCoverage
