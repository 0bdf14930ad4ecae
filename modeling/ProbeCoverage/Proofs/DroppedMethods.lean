import ProbeCoverage.Proofs.BuiltInFilters
import ProbeCoverage.Proofs.MethodOrder
import ProbeCoverage.Proofs.ReportSums

/-!
# Filters drop whole methods

An analysis with the built-in filters and one without any filter record and merge the same graphs,
so they come to the same outcomes and the same probe array. The filters take away the reports on the
methods that they drop; the other methods have the same reports.
-/

namespace ProbeCoverage

def Method.HasInstruction (m : Method) : Prop :=
  ∃ handle signature, .instruction handle signature ∈ m.events

theorem Method.hasInstruction_iff {m : Method} :
    m.HasInstruction ↔ Stream.handles m.events ≠ [] := by
  rw [HasInstruction, ← List.isEmpty_eq_false_iff, List.isEmpty_eq_false_iff_exists_mem]
  simp only [Stream.mem_handles_iff]

instance (m : Method) : Decidable m.HasInstruction := decidable_of_iff' _ Method.hasInstruction_iff

/-- The methods that are reported: those with code that the flags do not drop. -/
def FilterFlags.Keeps (f : FilterFlags) (c : ClassDecl) (m : Method) : Prop :=
  m.HasInstruction ∧ ¬ f.Drops c m.decl

instance (f : FilterFlags) (c : ClassDecl) (m : Method) : Decidable (f.Keeps c m) :=
  inferInstanceAs (Decidable (_ ∧ _))

theorem FilterFlags.keeps_empty {c : ClassDecl} {m : Method} :
    (∅ : FilterFlags).Keeps c m ↔ m.HasInstruction := by
  refine and_iff_left fun h ↦ ?_
  cases h with
  | synthetic hflag => exact absurd hflag (by decide)
  | generated hflag => exact absurd hflag (by decide)

/-! ## The report on one method -/

/-- The report is on this method. -/
structure MethodReport.On (r : MethodReport) (m : MethodDecl) : Prop where
  name : r.name = m.name
  desc : r.desc = m.desc
  signature : r.signature = m.signature

namespace Selection

variable {g : FlowGraph} {s : Selection} {name desc : String} {signature : Option String}
  {r : MethodReport}

theorem hasCode_of_tally (h : s.tally g { name, desc, signature } = .ok r) :
    r.hasCode = true ↔ s.reported g ≠ [] := by
  rw [MethodReport.hasCode, instructions_of_tally h, Node.items_sum_instructionCounter,
    decide_eq_true_iff, List.length_pos_iff]

end Selection

namespace ClassRun

variable {run run' run₀ : ClassRun} {m : Method} {ms : List Method} {flags : FilterFlags}
  {c c₀ : Contribution} {cs cs₀ : List Contribution}

/-- The filters leave code of a method to be reported exactly if they keep it. -/
theorem reported_ne_nil_iff (hfilter : run.filter = .chain flags.filters) {p : Prepared}
    (hp : run.prepare m = .ok p) :
    (Selection.ofDecisions p.graph (run.filter.decisions m.decl p.graph run.decl)).reported
      p.graph ≠ [] ↔ flags.Keeps run.decl m := by
  obtain ⟨g, hg, -, hgraph⟩ := prepare_eq_ok_iff.mp hp
  have hsize : (p.gain.coverAll g.nodes).size = g.nodes.size := Array.size_map
  rw [hfilter, hgraph]
  by_cases hdrops : flags.Drops run.decl m.decl
  · have hnil : (Selection.ofDecisions { g with nodes := p.gain.coverAll g.nodes }
        ((Filter.chain flags.filters).decisions m.decl
          { g with nodes := p.gain.coverAll g.nodes } run.decl)).reported
        { g with nodes := p.gain.coverAll g.nodes } = [] :=
      Selection.reported_eq_nil fun id hid ↦
        FlowGraph.skips_ignoreAll hg hsize (FilterFlags.ignoreAll_subset_of_drops hdrops _) hid
    simp [hnil, FilterFlags.Keeps, hdrops]
  · rw [FilterFlags.decisions_of_not_drops hdrops, FilterFlags.Keeps, Method.hasInstruction_iff,
      and_iff_left hdrops]
    change (({} : Selection).reported _ ≠ []) ↔ _
    rw [Selection.reported_empty, ← List.length_pos_iff, ← List.length_pos_iff, Array.length_toList,
      hsize, FlowGraph.size_ofEvents hg, Stream.count_cursor]

theorem hasCode_of_contribution (hfilter : run.filter = .chain flags.filters)
    (h : run.contribution m = .ok c) : c.report.hasCode = true ↔ flags.Keeps run.decl m := by
  obtain ⟨p, hp, hreport, -⟩ := contribution_eq_ok_iff.mp h
  rw [Selection.hasCode_of_tally hreport, reported_ne_nil_iff hfilter hp]

theorem on_of_contribution (h : run.contribution m = .ok c) : c.report.On m.decl := by
  obtain ⟨p, -, hreport, -⟩ := contribution_eq_ok_iff.mp h
  rw [Selection.eq_plus_of_tally hreport]
  exact ⟨rfl, rfl, rfl⟩

/-! ## All methods -/

theorem Contributes.eq_foldl_plus (h : Contributes run ms cs run') : run' = cs.foldl plus run := by
  induction h with
  | nil => rfl
  | cons _ _ ih => exact ih

/-- The methods that are reported, out of the reports on all methods. -/
def reportsOn (P : Method → Prop) [DecidablePred P] (ms : List Method)
    (reports : List MethodReport) : List MethodReport :=
  ((ms.zip reports).filter fun x ↦ P x.1).map (·.2)

theorem reportsOn_cons (P : Method → Prop) [DecidablePred P] (m : Method) (ms : List Method)
    (r : MethodReport) (reports : List MethodReport) : reportsOn P (m :: ms) (r :: reports) =
      if P m then r :: reportsOn P ms reports else reportsOn P ms reports := by
  rw [reportsOn, List.zip_cons_cons, List.filter_cons]
  split
  next h =>
    rw [if_pos (of_decide_eq_true h)]
    rfl
  next h =>
    rw [if_neg fun hm ↦ h (decide_eq_true hm)]
    rfl

theorem reportsOn_congr {P Q : Method → Prop} [DecidablePred P] [DecidablePred Q]
    (h : ∀ m, P m ↔ Q m) (ms : List Method) (reports : List MethodReport) :
    reportsOn P ms reports = reportsOn Q ms reports := by
  simp only [reportsOn, h]

theorem forall₂_reportsOn {R : Method → MethodReport → Prop} (P : Method → Prop) [DecidablePred P]
    {reports : List MethodReport} (h : List.Forall₂ R ms reports) :
    List.Forall₂ R (ms.filter (P ·)) (reportsOn P ms reports) := by
  induction h with
  | nil => exact .nil
  | @cons m r ms reports hm _ ih =>
    rw [reportsOn_cons, List.filter_cons]
    by_cases hP : P m
    · simpa [hP] using ⟨hm, ih⟩
    · simpa [hP] using ih

theorem Contributes.forall₂_on (h : Contributes run ms cs run') :
    List.Forall₂ (fun m r ↦ r.On m.decl) ms (cs.map (·.report)) := by
  induction h with
  | nil => exact .nil
  | cons hc _ ih => exact .cons (on_of_contribution hc) ih

theorem Contributes.filter_hasCode (h : Contributes run ms cs run')
    (hfilter : run.filter = .chain flags.filters) : (cs.map (·.report)).filter (·.hasCode) =
      reportsOn (flags.Keeps run.decl) ms (cs.map (·.report)) := by
  induction h with
  | nil => rfl
  | @cons run _ m ms c cs hc _ ih =>
    have hcode := hasCode_of_contribution hfilter hc
    have hdecl : (run.plus c).decl = run.decl := rfl
    rw [List.map_cons, List.filter_cons, reportsOn_cons, ih hfilter, hdecl]
    simp only [hcode]

/-- The methods that are reported are those that the filters keep. -/
theorem Contributes.methods_eq (h : Contributes run ms cs run')
    (hfilter : run.filter = .chain flags.filters) : run'.report.methods.toList =
      run.report.methods.toList ++ reportsOn (flags.Keeps run.decl) ms (cs.map (·.report)) := by
  rw [h.eq_foldl_plus, methods_foldl_plus, h.filter_hasCode hfilter]

/-! ## With and without filters -/

/-- The runs differ in their filters and in what was reported only. -/
structure SameInput (run run₀ : ClassRun) : Prop where
  decl : run₀.decl = run.decl
  previous : run₀.previous = run.previous
  probes : run₀.probes = run.probes

theorem SameInput.prepare_eq (h : SameInput run run₀) (m : Method) :
    run₀.prepare m = run.prepare m := by
  simp only [prepare, verdict, h.decl, h.previous, h.probes]

theorem SameInput.fire (h : SameInput run run₀) (gain : Gain) (report report₀ : ClassReport) :
    SameInput { run.fire gain with report } { run₀.fire gain with report := report₀ } where
  decl := h.decl
  previous := h.previous
  probes := congrArg (Option.map gain.fire) h.probes

/-- What is not dropped is reported as without filters. -/
theorem contribution_eq_of_not_drops (h : SameInput run run₀)
    (hfilter : run.filter = .chain flags.filters) (hfilter₀ : run₀.filter = .chain [])
    (hdrops : ¬ flags.Drops run.decl m.decl) : run₀.contribution m = run.contribution m := by
  have hreport : ∀ g, run₀.methodReport m.decl g = run.methodReport m.decl g := fun g ↦ by
    rw [methodReport, methodReport, hfilter, hfilter₀, h.decl,
      FilterFlags.decisions_of_not_drops hdrops]
    rfl
  simp only [contribution, h.prepare_eq, hreport]

/-- Filters change neither an outcome nor what is fired, and no report on a method that they
keep. -/
theorem contributes_unfiltered (h : Contributes run ms cs run')
    (h₀ : Contributes run₀ ms cs₀ run₀') (hsame : SameInput run run₀)
    (hfilter : run.filter = .chain flags.filters) (hfilter₀ : run₀.filter = .chain []) :
    cs₀.map (·.outcome) = cs.map (·.outcome) ∧ run₀'.probes = run'.probes ∧
      reportsOn (flags.Keeps run.decl) ms (cs.map (·.report)) =
        reportsOn (flags.Keeps run.decl) ms (cs₀.map (·.report)) := by
  induction h generalizing run₀ cs₀ with
  | nil =>
    cases h₀
    exact ⟨rfl, hsame.probes, rfl⟩
  | @cons run _ m ms c cs hc _ ih =>
    cases h₀ with
    | @cons _ _ _ _ c₀ cs₀ hc₀ hrest₀ =>
      obtain ⟨p, hp, -, -, houtcome, hgain⟩ := contribution_eq_ok_iff.mp hc
      obtain ⟨p₀, hp₀, -, -, houtcome₀, hgain₀⟩ := contribution_eq_ok_iff.mp hc₀
      rw [hsame.prepare_eq, hp] at hp₀
      cases hp₀
      have hnext : SameInput (run.plus c) (run₀.plus c₀) := by
        rw [plus, plus, hgain, hgain₀]
        exact hsame.fire p.gain _ _
      obtain ⟨houtcomes, hprobes, hreports⟩ := ih hrest₀ hnext hfilter hfilter₀
      have hdecl : (run.plus c).decl = run.decl := rfl
      rw [hdecl] at hreports
      refine ⟨?_, hprobes, ?_⟩
      · rw [List.map_cons, List.map_cons, houtcomes, houtcome, houtcome₀]
      · rw [List.map_cons, List.map_cons, reportsOn_cons, reportsOn_cons, hreports]
        split
        next hkeeps =>
          rw [contribution_eq_of_not_drops hsame hfilter hfilter₀ hkeeps.2, hc] at hc₀
          rw [Except.ok.inj hc₀]
        next => rfl

/-- The items of the methods that are left to be counted, with what the previous run adds to
them. -/
def totalItems (run : ClassRun) : List Method → Nat
  | [] => 0
  | m :: ms =>
    match run.prepare m with
    | .ok p => run.graphItems m.decl p.graph + (run.fire p.gain).totalItems ms
    | .error _ => 0

theorem totalItems_withReport (run : ClassRun) (report : ClassReport) (ms : List Method) :
    { run with report }.totalItems ms = run.totalItems ms := by
  induction ms generalizing run with
  | nil => rfl
  | cons m ms ih =>
    have hprepare : { run with report }.prepare m = run.prepare m := rfl
    rw [totalItems, totalItems, hprepare]
    cases run.prepare m with
    | error e => rfl
    | ok p =>
      have hfire : { run with report }.fire p.gain = { run.fire p.gain with report } := rfl
      dsimp only
      rw [hfire, ih]
      rfl

/-- With other filters the analysis returns, too, unless there are more items than a count can
hold. -/
theorem mapM_analyze_or_overflow (h : Contributes run ms cs run') (hsame : SameInput run run₀)
    {n : Nat} (hn : run₀.report.Within n) :
    (∃ outcomes run₁, (ms.mapM analyze).run run₀ = .ok outcomes run₁) ∨
      (∃ run₁, (ms.mapM analyze).run run₀ = .error .overflow run₁) ∧
        countBound ≤ n + run₀.totalItems ms := by
  induction h generalizing run₀ n with
  | nil => exact Or.inl ⟨[], run₀, rfl⟩
  | @cons run _ m ms c cs hc _ ih =>
    obtain ⟨p, hp, -, -, -, hgain⟩ := contribution_eq_ok_iff.mp hc
    have hp₀ : run₀.prepare m = .ok p := (hsame.prepare_eq m).trans hp
    have hrun := run_analyze_eq m run₀
    have hcounts := counts_graph hn m.decl p.graph
    rw [hp₀] at hrun
    rw [totalItems, hp₀]
    simp only [List.mapM_cons, EStateM.run_bind, hrun]
    cases hadd : run₀.addGraph m.decl p.graph with
    | error e =>
      rw [hadd] at hcounts
      obtain ⟨rfl, hle⟩ := hcounts
      right
      exact ⟨⟨_, rfl⟩, by omega⟩
    | ok report =>
      rw [hadd] at hcounts
      have hnext : SameInput (run.plus c) { run₀.fire p.gain with report } := by
        rw [plus, hgain]
        exact hsame.fire p.gain _ _
      simp only [conclude]
      rcases ih hnext hcounts with ⟨outcomes, run₁, hrest⟩ | ⟨⟨run₁, hrest⟩, hle⟩
      · left
        rw [hrest]
        exact ⟨p.outcome :: outcomes, run₁, rfl⟩
      · right
        rw [hrest]
        rw [totalItems_withReport] at hle
        exact ⟨⟨run₁, rfl⟩, by omega⟩

/-- The built-in filters drop whole methods and nothing else. What is reported are the methods with
code that the flags do not drop, in their order; and without filters the analysis comes to the same
outcomes and the same array, with the same reports on these methods. Or it overflows, if all methods
have more items than a count can hold. -/
theorem mapM_analyze_filters {decl : ClassDecl} {previous : Option Snapshot}
    {probes : Option (Array Bool)} {outcomes : List MergeOutcome}
    (h : (ms.mapM analyze).run (start decl (.chain flags.filters) previous probes) =
      .ok outcomes run) :
    List.Forall₂ (fun m r ↦ r.On m.decl) (ms.filter (flags.Keeps decl ·))
        run.report.methods.toList ∧
      ((∃ run₀ reports,
          (ms.mapM analyze).run (start decl (.chain []) previous probes) = .ok outcomes run₀ ∧
            run₀.probes = run.probes ∧ reports.length = ms.length ∧
            run₀.report.methods.toList = reportsOn Method.HasInstruction ms reports ∧
            run.report.methods.toList = reportsOn (flags.Keeps decl) ms reports) ∨
        (∃ run₀, (ms.mapM analyze).run (start decl (.chain []) previous probes) =
            .error .overflow run₀) ∧
          countBound ≤ (start decl (.chain []) previous probes).totalItems ms) := by
  have hfits := ClassReport.fits_ofClass decl
  have hsame : SameInput (start decl (.chain flags.filters) previous probes)
      (start decl (.chain []) previous probes) := ⟨rfl, rfl, rfl⟩
  obtain ⟨cs, hcs, rfl, -⟩ := (mapM_analyze_eq_ok_iff hfits).mp h
  have hmethods := hcs.methods_eq rfl
  change _ = [] ++ _ at hmethods
  rw [List.nil_append] at hmethods
  refine ⟨hmethods ▸ forall₂_reportsOn _ hcs.forall₂_on, ?_⟩
  rcases mapM_analyze_or_overflow hcs hsame (ClassReport.within_ofClass decl 0) with
    ⟨outcomes₀, run₀, h₀⟩ | ⟨hoverflow, hle⟩
  · left
    obtain ⟨cs₀, hcs₀, rfl, -⟩ := (mapM_analyze_eq_ok_iff hfits).mp h₀
    obtain ⟨houtcomes, hprobes, hreports⟩ := contributes_unfiltered hcs hcs₀ hsame rfl rfl
    have hmethods₀ := @Contributes.methods_eq _ _ _ ∅ _ hcs₀ rfl
    rw [reportsOn_congr fun _ ↦ FilterFlags.keeps_empty] at hmethods₀
    refine ⟨run₀, cs₀.map (·.report), houtcomes ▸ h₀, hprobes, ?_, hmethods₀,
      hmethods.trans hreports⟩
    simpa using hcs₀.forall₂_on.length_eq.symm
  · right
    rw [Nat.zero_add] at hle
    exact ⟨hoverflow, hle⟩

/-- A method that the compiler made. -/
def compiled (name : String) (probe : Nat) : Method :=
  let m := returning name probe
  { m with decl := { m.decl with access := Access.synthetic } }

/-- A method with an annotation of the type `Generated`. -/
def annotated (name : String) (probe : Nat) : Method :=
  let m := returning name probe
  { m with decl := { m.decl with annotations := ["Llombok/Generated;"] } }

/-- Also the methods that are dropped are merged, and fire their probes. -/
theorem mapM_analyze_filters_lambda :
    let ms := [compiled "access$0" 0, compiled "lambda$f$0" 1, annotated "f" 2, returning "g" 3,
      codeless]
    let flags : FilterFlags := FilterFlags.synthetic.union FilterFlags.generated
    ∃ snapshot run, Snapshot.capture ms (some #[true, true, true, true]) = .ok snapshot ∧
      (ms.mapM analyze).run (start { name := "A" } (.chain flags.filters) (some snapshot)
          (some #[false, false, false, false])) =
        .ok [.merged, .merged, .merged, .merged, .noPrevious] run ∧
      run.probes = some #[true, true, true, true] ∧
      List.Forall₂ (fun m r ↦ r.On m.decl) [compiled "lambda$f$0" 1, returning "g" 3]
        run.report.methods.toList := by
  intro ms flags
  obtain ⟨snapshot, hsnapshot⟩ : ∃ snapshot,
      Snapshot.capture ms (some #[true, true, true, true]) = .ok snapshot :=
    exists_eq_ok (by decide +kernel)
  have hall : ((Snapshot.capture ms (some #[true, true, true, true])).map fun snapshot ↦
      let run := start { name := "A" } (.chain flags.filters) (some snapshot)
        (some #[false, false, false, false])
      ((ms.mapM analyze).answer run, ((ms.mapM analyze).final run).probes)) =
      .ok (.ok [.merged, .merged, .merged, .merged, .noPrevious],
        some #[true, true, true, true]) := by decide +kernel
  rw [hsnapshot] at hall
  obtain ⟨hanswer, hprobes⟩ := Prod.mk.inj (Except.ok.inj hall)
  obtain ⟨run, hrun⟩ := Update.exists_run_of_answer hanswer
  rw [Update.final, hrun] at hprobes
  have hkeeps : ms.filter (flags.Keeps { name := "A" } ·) =
      [compiled "lambda$f$0" 1, returning "g" 3] := by decide +kernel
  exact ⟨snapshot, run, hsnapshot, hrun, hprobes, hkeeps ▸ (mapM_analyze_filters hrun).1⟩

end ClassRun

end ProbeCoverage
