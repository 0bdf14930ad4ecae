import ProbeCoverage.Proofs.CoverageOrder
import ProbeCoverage.Proofs.MethodAnalysis
import ProbeCoverage.Proofs.Rerun

/-!
# Merging takes no coverage away

Reports on the same code are compared item by item: there are as many instructions, of which at
least as many are covered. Sums keep this order, and so does the analysis of a class: beside an
analysis without a previous run, one that merges is at every step at least as far.
-/

namespace ProbeCoverage

/-! ## Reports in order -/

/-- The same items, of which at least as many are covered. -/
structure Counter.Improves (c d : Counter) : Prop where
  items : c.items = d.items
  covered : c.covered ≤ d.covered

structure LineReport.Improves (r s : LineReport) : Prop where
  instructions : r.instructions.Improves s.instructions
  branches : r.branches.covered ≤ s.branches.covered

/-- The same lines are recorded, and each has at least as much covered. -/
structure LineTable.Improves (t u : LineTable) : Prop where
  recorded : ∀ line, (t.get? line).isSome = (u.get? line).isSome
  lines : ∀ line, (t.lineAt line).Improves (u.lineAt line)

structure Totals.Improves (t u : Totals) : Prop where
  instructions : t.instructions.Improves u.instructions
  branches : t.branches.covered ≤ u.branches.covered
  complexity : t.complexity.covered ≤ u.complexity.covered
  methods : t.methods.Improves u.methods
  lines : t.lines.Improves u.lines

/-- Reports on the same method, of which the second has at least as much covered. -/
structure MethodReport.Improves (r s : MethodReport) : Prop where
  name : r.name = s.name
  desc : r.desc = s.desc
  signature : r.signature = s.signature
  totals : r.totals.Improves s.totals

/-- Reports on the same class with the same methods, of which the second has at least as much
covered, in each of them and in all. -/
structure ClassReport.Improves (r s : ClassReport) : Prop where
  name : r.name = s.name
  signature : r.signature = s.signature
  superName : r.superName = s.superName
  interfaces : r.interfaces = s.interfaces
  sourceFile : r.sourceFile = s.sourceFile
  methods : List.Forall₂ MethodReport.Improves r.methods.toList s.methods.toList
  totals : r.totals.Improves s.totals

namespace Counter

variable {c d c' d' : Counter}

theorem Improves.refl (c : Counter) : c.Improves c := ⟨rfl, Nat.le_refl _⟩

theorem Improves.add (h : c.Improves d) (h' : c'.Improves d') : (c + c').Improves (d + d') where
  items := by rw [items_add, items_add, h.items, h'.items]
  covered := Nat.add_le_add h.covered h'.covered

theorem improves_one {a b : Bool} (h : a = true → b = true) : (one a).Improves (one b) where
  items := by rw [items_one, items_one]
  covered := by
    cases a with
    | false => exact Nat.zero_le _
    | true =>
      rw [h rfl]

end Counter

namespace LineTable

variable {t u t' u' : LineTable}

theorem Improves.refl (t : LineTable) : t.Improves t :=
  ⟨fun _ ↦ rfl, fun _ ↦ ⟨.refl _, Nat.le_refl _⟩⟩

theorem Improves.add (h : t.Improves u) (h' : t'.Improves u') :
    (t + t').Improves (u + u') where
  recorded line := by
    rw [get?_add, get?_add, Option.isSome_merge, Option.isSome_merge, h.recorded, h'.recorded]
  lines line := by
    have hline := h.lines line
    have hline' := h'.lines line
    rw [lineAt_add, lineAt_add]
    exact ⟨hline.instructions.add hline'.instructions,
      Nat.add_le_add hline.branches hline'.branches⟩

theorem improves_single {r s : LineReport} (h : r.Improves s) (line : Nat) :
    (single line r).Improves (single line s) where
  recorded l := by
    rw [single, single, get?_addLine, get?_addLine]
    split <;> rfl
  lines l := by
    by_cases hl : line = l
    · subst hl
      simp only [single, lineAt_addLine_self, lineAt_zero, zero_add]
      exact h
    · simp only [single, lineAt_addLine_of_ne hl]
      exact (Improves.refl 0).lines l

end LineTable

namespace Totals

variable {t u t' u' : Totals}

theorem Improves.zero : Improves 0 0 :=
  ⟨.refl _, Nat.le_refl _, Nat.le_refl _, .refl _, .refl _⟩

theorem Improves.add (h : t.Improves u) (h' : t'.Improves u') : (t + t').Improves (u + u') where
  instructions := h.instructions.add h'.instructions
  branches := Nat.add_le_add h.branches h'.branches
  complexity := Nat.add_le_add h.complexity h'.complexity
  methods := h.methods.add h'.methods
  lines := h.lines.add h'.lines

theorem improves_sum {ts us : List Totals} (h : List.Forall₂ Improves ts us) :
    ts.sum.Improves us.sum :=
  List.rel_sum .zero (fun _ _ h _ _ h' ↦ h.add h') h

theorem improves_ofMethod {a b : Bool} (h : a = true → b = true) :
    (ofMethod a).Improves (ofMethod b) :=
  ⟨.refl _, Nat.le_refl _, (Counter.improves_one h).covered, Counter.improves_one h, .refl _⟩

end Totals

/-! ## Instructions -/

namespace Node

variable {n m : Node}

theorem covered_decision (n : Node) :
    n.branchCounter.decision.covered = n.branchCounter.covered - 1 := by
  have hitems : 1 < n.branchCounter.items ∨ n.branchCounter.covered = 0 := by
    rw [branchCounter]
    split
    · right
      rfl
    · left
      simp only [Counter.items]
      omega
  rw [Counter.decision]
  split
  · rfl
  next hone => rw [hitems.resolve_left hone, Counter.covered_zero]

theorem Below.covered_branchCounter (h : n.Below m) :
    n.branchCounter.covered ≤ m.branchCounter.covered := by
  have hsize := BranchSet.size_le_of_subset h.covered
  rw [branchCounter, branchCounter, h.branches]
  split
  · exact Nat.le_refl _
  · dsimp only
    omega

theorem Below.totals (h : n.Below m) : n.totals.Improves m.totals := by
  have hinstructions : n.instructionCounter.Improves m.instructionCounter :=
    Counter.improves_one h.isCovered
  refine ⟨hinstructions, h.covered_branchCounter, ?_, .refl _, ?_⟩
  · change n.branchCounter.decision.covered ≤ m.branchCounter.decision.covered
    rw [covered_decision, covered_decision]
    exact Nat.sub_le_sub_right h.covered_branchCounter 1
  · simp only [Node.totals, Totals.ofItem, h.line]
    cases m.line with
    | none => exact .refl _
    | some line => exact LineTable.improves_single ⟨hinstructions, h.covered_branchCounter⟩ line

end Node

theorem Selection.improves_totals {g h : FlowGraph} (hgh : g.Below h) (s : Selection) :
    (s.totals g).Improves (s.totals h) := by
  refine Totals.improves_sum ?_
  rw [List.forall₂_map_left_iff, List.forall₂_map_right_iff]
  exact (reported_below hgh s).imp fun _ _ hnm ↦ hnm.totals

namespace MethodReport

variable {r s : MethodReport}

theorem Improves.refl (r : MethodReport) : r.Improves r :=
  ⟨rfl, rfl, rfl, .refl _, Nat.le_refl _, Nat.le_refl _, .refl _, .refl _⟩

theorem Improves.plus (h : r.Improves s) {t u : Totals} (htu : t.Improves u) :
    (r.plus t).Improves (s.plus u) :=
  ⟨h.name, h.desc, h.signature, h.totals.add htu⟩

theorem Improves.hasCode (h : r.Improves s) : r.hasCode = s.hasCode := by
  have hitems : r.instructions.items = s.instructions.items := h.totals.instructions.items
  rw [MethodReport.hasCode, MethodReport.hasCode, hitems]

end MethodReport

theorem Selection.improves_tally {g h : FlowGraph} (hgh : g.Below h) {s : Selection}
    {r rg rh : MethodReport} (hg : s.tally g r = .ok rg) (hh : s.tally h r = .ok rh) :
    rg.Improves rh := by
  rw [eq_plus_of_tally hg, eq_plus_of_tally hh]
  have hsum := (MethodReport.Improves.refl r).plus (improves_totals hgh s)
  refine hsum.plus (Totals.improves_ofMethod fun hcovered ↦ ?_)
  have hle : (r.plus (s.totals g)).instructions.covered ≤
      (r.plus (s.totals h)).instructions.covered := hsum.totals.instructions.covered
  simp only [ne_eq, decide_eq_true_eq] at hcovered ⊢
  omega

theorem ClassReport.Improves.plusCode {r s : ClassReport} {m n : MethodReport} (h : r.Improves s)
    (hmn : m.Improves n) : (r.plusCode m).Improves (s.plusCode n) := by
  rw [ClassReport.plusCode, ClassReport.plusCode, hmn.hasCode]
  split
  · refine ⟨h.name, h.signature, h.superName, h.interfaces, h.sourceFile, ?_,
      h.totals.add hmn.totals⟩
    simp only [plus, Array.toList_push]
    exact List.rel_append h.methods (.cons hmn .nil)
  · exact h

/-! ## The analysis of a class -/

/-- The filter sees the class, the method and the handles of its instructions only. -/
def Filter.ReadsHandles (f : Filter) : Prop :=
  ∀ (m : MethodDecl) (c : ClassDecl) (g h : FlowGraph), g.handles = h.handles →
    f.decisions m g c = f.decisions m h c

namespace Filter

theorem readsHandles_ignoreAll {g h : FlowGraph} (hhandles : g.handles = h.handles) :
    ignoreAll g = ignoreAll h := by
  rw [ignoreAll, ignoreAll, hhandles]

theorem readsHandles_synthetic : synthetic.ReadsHandles := fun m c g h hhandles ↦ by
  simp only [synthetic, readsHandles_ignoreAll hhandles]

theorem readsHandles_generated : generated.ReadsHandles := fun m c g h hhandles ↦ by
  simp only [generated, readsHandles_ignoreAll hhandles]

theorem readsHandles_chain {fs : List Filter} (hfs : ∀ f ∈ fs, f.ReadsHandles) :
    (chain fs).ReadsHandles := fun m c g h hhandles ↦
  List.flatMap_congr fun f hf ↦ hfs f hf m c g h hhandles

/-- No filter that can be selected looks at the coverage. -/
theorem readsHandles_filters (flags : FilterFlags) : (chain flags.filters).ReadsHandles := by
  refine readsHandles_chain fun f hf ↦ ?_
  rw [FilterFlags.filters, List.mem_append] at hf
  rcases hf with hf | hf
  · split at hf
    · rw [List.mem_singleton.mp hf]
      exact readsHandles_synthetic
    · cases hf
  · split at hf
    · rw [List.mem_singleton.mp hf]
      exact readsHandles_generated
    · cases hf

end Filter

namespace ClassRun

variable {run plain merged : ClassRun} {m : Method}

/-- An analysis without a previous run, and beside it one that merges. -/
structure Ahead (plain merged : ClassRun) : Prop where
  alone : plain.previous = none
  decl : plain.decl = merged.decl
  filter : plain.filter = merged.filter
  size : merged.probes.map (·.size) = plain.probes.map (·.size)
  kept : ∀ i, fires plain.probes i = true → fires merged.probes i = true
  report : plain.report.Improves merged.report

theorem prepare_alone {p : Prepared} (hp : run.prepare m = .ok p) (halone : run.previous = none) :
    FlowGraph.ofEvents run.probes m.events = .ok p.graph ∧ p.gain = .nothing := by
  obtain ⟨g, hg, hverdict, hgraph⟩ := prepare_eq_ok_iff.mp hp
  rw [verdict, halone] at hverdict
  have hgain : p.gain = .nothing := (congrArg Prod.snd (Except.ok.inj hverdict)).symm
  rw [hgain, Gain.coverAll_nothing] at hgraph
  exact ⟨hgraph ▸ hg, hgain⟩

/-- One method: it is covered at least as it would be without merging. -/
theorem Ahead.plus (hfilter : plain.filter.ReadsHandles) (h : Ahead plain merged)
    {c d : Contribution} (hc : plain.contribution m = .ok c) (hd : merged.contribution m = .ok d) :
    Ahead (plain.plus c) (merged.plus d) := by
  obtain ⟨p, hp, hreport, -, -, hgain⟩ := contribution_eq_ok_iff.mp hc
  obtain ⟨q, hq, hreport', -, -, -⟩ := contribution_eq_ok_iff.mp hd
  obtain ⟨hg, hnothing⟩ := prepare_alone hp h.alone
  obtain ⟨g, hg', -, hgraph⟩ := prepare_eq_ok_iff.mp hq
  have hbelow : p.graph.Below q.graph := by
    rw [hgraph]
    exact (FlowGraph.below_of_fires hg hg' fun i _ ↦ h.kept i).coverAll q.gain
  have hplain : plain.fire c.gain = plain := by
    rw [hgain, hnothing, fire_nothing]
  have hdecisions := hfilter m.decl plain.decl p.graph q.graph hbelow.handles
  rw [methodReport, ← h.filter, ← h.decl, ← hdecisions,
    ← Selection.ofDecisions_of_below hbelow] at hreport'
  refine ⟨h.alone, h.decl, h.filter, ?_, fun i hi ↦ ?_, ?_⟩
  · change (merged.fire d.gain).probes.map (·.size) = (plain.fire c.gain).probes.map (·.size)
    rw [hplain, ← h.size, fire, Option.map_map]
    exact congrArg (merged.probes.map ·) (funext (Gain.size_fire d.gain))
  · have hi' : fires (plain.fire c.gain).probes i = true := hi
    rw [hplain] at hi'
    exact fires_map_fire.mpr (Or.inl (h.kept i hi'))
  · exact h.report.plusCode (Selection.improves_tally hbelow hreport hreport')

theorem Ahead.contributes (hfilter : plain.filter.ReadsHandles) {ms : List Method}
    {cs ds : List Contribution} {plain' merged' : ClassRun} (h : Ahead plain merged)
    (hplain : Contributes plain ms cs plain') (hmerged : Contributes merged ms ds merged') :
    Ahead plain' merged' := by
  induction hplain generalizing merged ds with
  | nil =>
    cases hmerged
    exact h
  | cons hc _ ih =>
    cases hmerged with
    | cons hd hrest => exact ih hfilter (h.plus hfilter hc hd) hrest

theorem ahead_start (decl : ClassDecl) (filter : Filter) (snapshot : Snapshot)
    (probes : Option (Array Bool)) :
    Ahead (start decl filter none probes) (start decl filter (some snapshot) probes) where
  alone := rfl
  decl := rfl
  filter := rfl
  size := rfl
  kept _ h := h
  report := ⟨rfl, rfl, rfl, rfl, rfl, .nil, .refl _, Nat.le_refl _, Nat.le_refl _, .refl _, .refl _⟩

theorem contributes_probes_alone {ms : List Method} {cs : List Contribution} {run' : ClassRun}
    (h : Contributes run ms cs run') (halone : run.previous = none) : run'.probes = run.probes := by
  induction h with
  | nil => rfl
  | @cons run run' _ _ c _ hc _ ih =>
    obtain ⟨p, hp, -, -, -, hgain⟩ := contribution_eq_ok_iff.mp hc
    have hprobes : (run.fire c.gain).probes = run.probes := by
      rw [hgain, (prepare_alone hp halone).2, fire_nothing]
    exact (ih halone).trans hprobes

/-- Beside the analysis without a previous run, one that merges has the same methods with the same
lines and instructions, and at least as much of it covered; and it keeps every fired probe. -/
theorem improves_of_previous {decl : ClassDecl} {filter : Filter} {snapshot : Snapshot}
    {probes : Option (Array Bool)} {ms : List Method} {outcomes outcomes' : List MergeOutcome}
    (hfilter : filter.ReadsHandles)
    (hplain : (ms.mapM analyze).run (start decl filter none probes) = .ok outcomes plain)
    (hmerged : (ms.mapM analyze).run (start decl filter (some snapshot) probes) =
      .ok outcomes' merged) :
    plain.report.Improves merged.report ∧
      merged.probes.map (·.size) = probes.map (·.size) ∧
      ∀ i, fires probes i = true → fires merged.probes i = true := by
  have hfits := ClassReport.fits_ofClass decl
  obtain ⟨cs, hcs, -, -⟩ := (mapM_analyze_eq_ok_iff hfits).mp hplain
  obtain ⟨ds, hds, -, -⟩ := (mapM_analyze_eq_ok_iff hfits).mp hmerged
  have hprobes : plain.probes = probes := contributes_probes_alone hcs rfl
  have hahead := (ahead_start decl filter snapshot probes).contributes hfilter hcs hds
  refine ⟨hahead.report, ?_, fun i hi ↦ hahead.kept i ?_⟩
  · rw [hahead.size, hprobes]
  · rw [hprobes]
    exact hi

/-- A decision with a probe for each branch. -/
def deciding : Method where
  decl := { access := ⟨1⟩, name := "f", desc := "()V" }
  events := [.line 3, .instruction ⟨0⟩ (some "if"), .probe 0 1, .probe 1 0, .endMethod]

theorem improves_of_previous_deciding :
    ∃ snapshot plain merged,
      Snapshot.capture [deciding] (some #[true, false]) = .ok snapshot ∧
      ([deciding].mapM analyze).run (start { name := "A" } (.chain (FilterFlags.filters .all)) none
        (some #[false, true])) = .ok [.noPrevious] plain ∧
      ([deciding].mapM analyze).run (start { name := "A" } (.chain (FilterFlags.filters .all))
        (some snapshot) (some #[false, true])) = .ok [.merged] merged ∧
      plain.report.Improves merged.report := by
  obtain ⟨snapshot, hsnapshot⟩ : ∃ snapshot,
      Snapshot.capture [deciding] (some #[true, false]) = .ok snapshot :=
    exists_eq_ok (by decide +kernel)
  have hplain : ([deciding].mapM analyze).answer (start { name := "A" }
      (.chain (FilterFlags.filters .all)) none (some #[false, true])) = .ok [.noPrevious] := by
    decide +kernel
  have hmerged : ((Snapshot.capture [deciding] (some #[true, false])).map fun snapshot ↦
      ([deciding].mapM analyze).answer (start { name := "A" } (.chain (FilterFlags.filters .all))
        (some snapshot) (some #[false, true]))) = .ok (.ok [.merged]) := by decide +kernel
  rw [hsnapshot] at hmerged
  obtain ⟨plain, hplain⟩ := Update.exists_run_of_answer hplain
  obtain ⟨merged, hmerged⟩ := Update.exists_run_of_answer (Except.ok.inj hmerged)
  exact ⟨snapshot, plain, merged, hsnapshot, hplain, hmerged,
    (improves_of_previous (Filter.readsHandles_filters .all) hplain hmerged).1⟩

end ClassRun

end ProbeCoverage
