import ProbeCoverage.Proofs.Imprint
import ProbeCoverage.Proofs.Merge
import ProbeCoverage.Proofs.Restatement

/-!
# Merging with a run of the same code

A previous run recorded a restatement of the stream. Merging with it gives the graph that the
stream has for the united probes, although a merge adds what was covered instruction by instruction
and spreads nothing: coverage adds up. Of the probe array it fires what fired before, but only in
the interval of the probes that instructions keep.
-/

namespace ProbeCoverage

section Span

variable {p : Array Bool} {es : List Event} {g : FlowGraph} {s : ProbeSpan}

theorem spans_probeSpan (hs : g.probeSpan = some s) :
    ProbeSpan.Spans s (g.nodes.toList.filterMap (·.probe)) :=
  ProbeSpan.spans_ofProbes hs

theorem contains_probeSpan_iff (h : FlowGraph.ofEvents (some p) es = .ok g)
    (hs : g.probeSpan = some s) {i : Nat} : s.contains i = true ↔ Stream.Kept es i := by
  simp only [(spans_probeSpan hs).contains_iff, FlowGraph.mem_probes_ofEvents h, Stream.Kept]

theorem not_kept_of_probeSpan_eq_none (h : FlowGraph.ofEvents (some p) es = .ok g)
    (hs : g.probeSpan = none) (i : Nat) : ¬ Stream.Kept es i := by
  rintro ⟨j, hj, -⟩
  have hmem := (FlowGraph.mem_probes_ofEvents h).mpr hj
  rw [ProbeSpan.ofProbes_eq_none_iff.mp hs] at hmem
  cases hmem

theorem Stream.uses_of_lastProbe? {id : NodeId} {i : Nat} (h : Stream.lastProbe? es id = some i) :
    Stream.Uses es i := by
  obtain ⟨b, hb, -⟩ := Stream.exists_of_lastProbe? h
  exact Stream.uses_of_mem_probes hb

theorem last_lt_size (h : FlowGraph.ofEvents (some p) es = .ok g) (hs : g.probeSpan = some s) :
    s.last < p.size := by
  obtain ⟨id, hid⟩ := (FlowGraph.mem_probes_ofEvents h).mp (spans_probeSpan hs).last_mem
  exact FlowGraph.readable_of_ofEvents h (Stream.uses_of_lastProbe? hid) p rfl

end Span

variable {ρ : Renaming} {es es' : List Event} {w q : Array Bool} {g g' : FlowGraph}

/-! ## The probes -/

/-- The span of the restatement is the span of the stream, moved. -/
theorem probeSpan_restated (hes : Restates ρ es es') (hg : FlowGraph.ofEvents (some w) es = .ok g)
    (hg' : FlowGraph.ofEvents (some q) es' = .ok g') :
    (g.probeSpan = none ∧ g'.probeSpan = none) ∨
      ∃ s t, g.probeSpan = some s ∧ g'.probeSpan = some t ∧
        (t.first : Int) = s.first + ρ.shift ∧ (t.last : Int) = s.last + ρ.shift := by
  have hmem : ∀ x, x ∈ g'.nodes.toList.filterMap (·.probe) ↔
      ∃ p ∈ g.nodes.toList.filterMap (·.probe), ρ.probe p = x := by
    intro x
    simp only [FlowGraph.mem_probes_ofEvents hg, FlowGraph.mem_probes_ofEvents hg',
      hes.lastProbe?_eq, Option.map_eq_some_iff]
    grind
  have hmoved : ∀ p ∈ g.nodes.toList.filterMap (·.probe), (ρ.probe p : Int) = p + ρ.shift := by
    intro p hp
    obtain ⟨id, hid⟩ := (FlowGraph.mem_probes_ofEvents hg).mp hp
    exact hes.probe_eq (Stream.uses_of_lastProbe? hid)
  have hnone : g'.probeSpan = none ↔ g.probeSpan = none := ProbeSpan.ofProbes_eq_none_congr hmem
  cases hs : g.probeSpan with
  | none =>
    left
    exact ⟨rfl, hnone.mpr hs⟩
  | some s =>
    right
    cases ht : g'.probeSpan with
    | none =>
      rw [hnone.mp ht] at hs
      cases hs
    | some t =>
      have hspan := spans_probeSpan hs
      have hmono : ∀ p ∈ g.nodes.toList.filterMap (·.probe),
          ∀ p' ∈ g.nodes.toList.filterMap (·.probe), p ≤ p' → ρ.probe p ≤ ρ.probe p' := by
        intro p hp p' hp' hle
        have hmp := hmoved p hp
        have hmp' := hmoved p' hp'
        omega
      obtain ⟨hfirst, hlast⟩ := hspan.moved (spans_probeSpan ht) hmem hmono
      refine ⟨s, t, rfl, rfl, ?_, ?_⟩
      · rw [hfirst]
        exact hmoved s.first hspan.first_mem
      · rw [hlast]
        exact hmoved s.last hspan.last_mem

theorem alignSpans_eq_ok {className method : String} {s t : ProbeSpan} {k : Nat}
    (hs : s.width = .ok k) (ht : t.width = .ok k) :
    alignSpans className method (some s) (some t) = .ok (some (s, t)) := by
  change (s.width >>= fun a ↦ t.width >>= fun b ↦ if a = b then pure (some (s, t)) else _) = _
  rw [hs, ht]
  change (if k = k then _ else _) = _
  rw [if_pos rfl]
  rfl

theorem getD_fire {gain : Gain} {probes : Array Bool} {i : Nat} :
    (gain.fire probes).getD i false = true ↔
      probes.getD i false = true ∨ i < probes.size ∧ gain.fired i = true := by
  rw [Array.getD_eq_getD_getElem?, Array.getD_eq_getD_getElem?, Gain.getElem?_fire]
  by_cases hi : i < probes.size
  · simp [hi]
  · simp [hi]

theorem fires_map_fire {gain : Gain} {probes : Option (Array Bool)} {i : Nat} :
    fires (probes.map gain.fire) i = true ↔
      fires probes i = true ∨ (∃ p, probes = some p ∧ i < p.size) ∧ gain.fired i = true := by
  cases probes with
  | none => simp [fires]
  | some p => simpa [fires] using getD_fire

/-- The spans of both runs fit, and together they fire the kept probes that fired before. -/
theorem exists_fired (hes : Restates ρ es es') (hg : FlowGraph.ofEvents (some w) es = .ok g)
    (hg' : FlowGraph.ofEvents (some q) es' = .ok g') (hword : w.size < probeBound)
    (className method : String) :
    ∃ spans fired, alignSpans className method g.probeSpan g'.probeSpan = .ok spans ∧
      MethodRun.firedBy spans (some w.size) (some q) = .ok fired ∧
      ∀ i, i < w.size ∧ fired i = true ↔ Stream.Kept es i ∧ q.getD (ρ.probe i) false = true := by
  rcases probeSpan_restated hes hg hg' with ⟨hs, ht⟩ | ⟨s, t, hs, ht, hfirst, hlast⟩
  · refine ⟨none, _, by rw [hs, ht]; rfl, rfl, fun i ↦ ?_⟩
    simp [not_kept_of_probeSpan_eq_none hg hs i]
  · have hltw := last_lt_size hg hs
    have hltq := last_lt_size hg' ht
    have hle := s.first_le_last
    have hwidth : t.last - t.first = s.last - s.first := by omega
    have hs' : s.width = .ok (s.last - s.first + 1) := ProbeSpan.width_eq_ok (by omega)
    have ht' : t.width = .ok (s.last - s.first + 1) := by
      rw [← hwidth]
      exact ProbeSpan.width_eq_ok (by omega)
    refine ⟨some (s, t), fun i ↦ s.contains i && q.getD (t.first + (i - s.first)) false, ?_, ?_,
      fun i ↦ ?_⟩
    · rw [hs, ht]
      exact alignSpans_eq_ok hs' ht'
    · rw [MethodRun.firedBy, if_neg (Nat.not_le.mpr hltw), if_neg (Nat.not_le.mpr hltq)]
    · have hkept := contains_probeSpan_iff hg hs (i := i)
      have hin : s.contains i = true ↔ s.first ≤ i ∧ i ≤ s.last := by simp [ProbeSpan.contains]
      have hplace : s.contains i = true → t.first + (i - s.first) = ρ.probe i := by
        intro hi
        have := hin.mp hi
        rw [Renaming.probe]
        omega
      rw [Bool.and_eq_true, ← hkept]
      constructor
      · rintro ⟨-, hi, hfire⟩
        exact ⟨hi, hplace hi ▸ hfire⟩
      · rintro ⟨hi, hfire⟩
        exact ⟨Nat.lt_of_le_of_lt (hin.mp hi).2 hltw, hi, (hplace hi).symm ▸ hfire⟩

/-! ## The graph -/

theorem taken_coverAll {gain : Gain} {nodes : Array Node} {x : Branch} :
    Taken (gain.coverAll nodes) x ↔
      ∃ n, nodes[x.node]? = some n ∧
        (x.index ∈ n.covered ∨ x.index ∈ gain.covered n.signature) := by
  simp [Taken, Gain.coverAll, Gain.cover, Array.getElem?_map]

theorem ofImprint_eq {m : Imprint} (hm : m.Prints g') {n : Node} (hn : n ∈ g'.nodes) {s : String}
    (hs : n.signature = some s) : Gain.ofImprint m (some s) = n.covered := by
  have hget : m.get? s = some n := (hm.get?_iff s n).mpr ⟨hn, hs⟩
  rw [Gain.ofImprint, Option.bind_some, hget, Option.elim_some]

/-- What the imprint adds to an instruction is what its restatement has taken. -/
theorem taken_coverAll_ofImprint {m : Imprint} {fired : Nat → Bool} (hm : m.Prints g')
    (hsigs : (g.nodes.map Node.signature).toList = (g'.nodes.map Node.signature).toList)
    (hsigned : none ∉ (g.nodes.map Node.signature).toList) {x : Branch} :
    Taken (Gain.coverAll ⟨Gain.ofImprint m, fired⟩ g.nodes) x ↔
      Taken g.nodes x ∨ Taken g'.nodes x := by
  have hsame : g.nodes.map Node.signature = g'.nodes.map Node.signature :=
    Array.toList_inj.mp hsigs
  have hget : (g.nodes.map Node.signature)[x.node]? = (g'.nodes.map Node.signature)[x.node]? := by
    rw [hsame]
  rw [Array.getElem?_map, Array.getElem?_map] at hget
  rw [taken_coverAll]
  cases hn : g.nodes[x.node]? with
  | none =>
    have hn' : g'.nodes[x.node]? = none := by simpa [hn] using hget.symm
    simp [Taken, hn, hn']
  | some n =>
    obtain ⟨n', hn', hsig⟩ : ∃ n', g'.nodes[x.node]? = some n' ∧ n'.signature = n.signature := by
      simpa [hn] using hget.symm
    cases hs : n.signature with
    | none =>
      refine absurd ?_ hsigned
      rw [Array.toList_map]
      exact List.mem_map.mpr ⟨n, Array.mem_def.mp (Array.mem_of_getElem? hn), hs⟩
    | some s =>
      have hadd := ofImprint_eq hm (Array.mem_of_getElem? hn') (hsig.trans hs)
      simp [Taken, hn, hn', hs, hadd]

theorem taken_congr_bares {a b : Array Node} (h : bares a = bares b) {x : Branch} :
    Taken a x ↔ Taken b x := by
  have hbare : ∀ nodes : Array Node, Taken (bares nodes) x ↔ Taken nodes x := by
    intro nodes
    simp [Taken, bares, Node.bare]
  rw [← hbare a, h, hbare b]

/-- The probes of the previous run, moved to where the current one has them. -/
def movedProbes (ρ : Renaming) (q : Array Bool) (size : Nat) : Array Bool :=
  Array.ofFn fun i : Fin size ↦ q.getD (ρ.probe i) false

theorem fires_movedProbes {size i : Nat} (hi : i < size) :
    fires (some (movedProbes ρ q size)) i = q.getD (ρ.probe i) false := by
  simp [fires, movedProbes, hi]

/-- The united probes give the stream the graph of the run, with what the imprint adds. -/
theorem ofEvents_united (hes : Restates ρ es es') (hg : FlowGraph.ofEvents (some w) es = .ok g)
    (hg' : FlowGraph.ofEvents (some q) es' = .ok g') (hsigned : AllSigned (Stream.signatures es))
    {m : Imprint} (hm : m.Prints g') {P : Array Bool} (hsize : P.size = w.size)
    (hP : ∀ i, Stream.Uses es i → P.getD i false = (w.getD i false || q.getD (ρ.probe i) false))
    (fired : Nat → Bool) :
    FlowGraph.ofEvents (some P) es =
      .ok { g with nodes := Gain.coverAll ⟨Gain.ofImprint m, fired⟩ g.nodes } := by
  have hlt : ∀ i, Stream.Uses es i → i < w.size := fun i hi ↦
    readable_some.mp (FlowGraph.readable_of_ofEvents hg hi)
  obtain ⟨moved, hmoved, hmovedOut⟩ :=
    FlowGraph.ofEvents_of_readable (B := some (movedProbes ρ q w.size)) hg fun i hi ↦
      readable_some.mpr (by simpa [movedProbes] using hlt i hi)
  obtain ⟨united, hunited, hunitedOut⟩ :=
    FlowGraph.ofEvents_of_readable (B := some P) hg fun i hi ↦
      readable_some.mpr (hsize ▸ hlt i hi)
  have hjoin : Joins g.nodes moved.nodes united.nodes :=
    joins_ofEvents hg hmoved hunited fun i hi ↦ by
      rw [fires_movedProbes (hlt i hi)]
      exact hP i hi
  have hbares : bares g'.nodes = bares moved.nodes :=
    bares_ofEvents hes hmoved hg' fun i hi ↦ fires_movedProbes (hlt i hi)
  have hsigs : (g.nodes.map Node.signature).toList = (g'.nodes.map Node.signature).toList := by
    rw [FlowGraph.signatures_ofEvents hg, FlowGraph.signatures_ofEvents hg', hes.signatures_eq]
  have hmerged : Joins g.nodes moved.nodes (Gain.coverAll ⟨Gain.ofImprint m, fired⟩ g.nodes) := by
    refine ⟨(Gain.outlines_coverAll _ _).symm, ?_, fun x ↦ ?_⟩
    · rw [Gain.outlines_coverAll]
      exact (congrArg FlowGraph.nodes hmovedOut :)
    · rw [taken_coverAll_ofImprint hm hsigs (FlowGraph.signatures_ofEvents hg ▸ hsigned.1),
        taken_congr_bares hbares]
  have hgraph : united = { g with nodes := Gain.coverAll ⟨Gain.ofImprint m, fired⟩ g.nodes } := by
    refine FlowGraph.ext_outline ?_ (hjoin.unique hmerged)
    rw [hunitedOut, FlowGraph.outline, FlowGraph.outline, Gain.outlines_coverAll]
  rw [hunited, hgraph]

/-! ## The merge -/

/-- The previous run has an imprint, and the merge with it succeeds. -/
theorem exists_merge (hes : Restates ρ es es') (hg : FlowGraph.ofEvents (some w) es = .ok g)
    (hg' : FlowGraph.ofEvents (some q) es' = .ok g') (hword : w.size < probeBound)
    (hsigned : AllSigned (Stream.signatures es)) (className method : String) :
    ∃ m fired, g'.imprint? = some m ∧ m.Prints g' ∧
      (MethodRun.merge className method (some m) (some q)).run ⟨g, some w⟩ =
        .ok .merged ((MethodRun.mk g (some w)).gather ⟨Gain.ofImprint m, fired⟩) ∧
      ∀ i, i < w.size ∧ fired i = true ↔
        Stream.Kept es i ∧ q.getD (ρ.probe i) false = true := by
  have hsigs := FlowGraph.signatures_ofEvents hg
  have hsigs' : (g'.nodes.map Node.signature).toList = Stream.signatures es := by
    rw [FlowGraph.signatures_ofEvents hg', hes.signatures_eq]
  obtain ⟨m, hm, hprints⟩ := Imprint.exists_prints (hsigs' ▸ hsigned)
  obtain ⟨spans, fired, halign, hfired, hfires⟩ := exists_fired hes hg hg' hword className method
  refine ⟨m, fired, hm, hprints, MethodRun.run_merge_eq_merged ?_ ?_ ?_ hfired, hfires⟩
  · rw [hprints.size]
    change g'.nodes.size = g.nodes.size
    rw [FlowGraph.size_ofEvents hg', FlowGraph.size_ofEvents hg, hes.cursor_eq]
  · apply hprints.missingIn_eq_nil
    intro s hs
    rwa [hsigs, ← hsigs']
  · rw [hprints.probeSpan_eq (hsigs' ▸ hsigned.1)]
    exact halign

end ProbeCoverage
