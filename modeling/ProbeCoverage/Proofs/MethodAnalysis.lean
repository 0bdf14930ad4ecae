import ProbeCoverage.Proofs.ClassAnalysis
import ProbeCoverage.Proofs.Merge
import ProbeCoverage.Proofs.Totals

/-!
# The analysis of one method

Before anything is counted, the method is recorded and matched with the previous run. This either
fails and changes nothing, or it fixes the outcome, the probes to be fired and the graph that the
filter is shown. What follows is counting, which can only overflow.
-/

namespace ProbeCoverage

namespace ClassRun

/-- What the previous run makes of the graph of a method. -/
def verdict (run : ClassRun) (m : MethodDecl) (g : FlowGraph) :
    Except Fault (MergeOutcome × Gain) :=
  match run.previous with
  | none => .ok (.noPrevious, .nothing)
  | some snapshot =>
    MethodRun.verdict run.decl.name m.matchKey (snapshot.method? m.matchKey) snapshot.probes
      ⟨g, run.probes⟩

/-- A method that is ready to be counted. -/
structure Prepared where
  outcome : MergeOutcome
  gain : Gain
  graph : FlowGraph

def prepare (run : ClassRun) (m : Method) : Except Fault Prepared := do
  let g ← FlowGraph.ofEvents run.probes m.events
  let (outcome, gain) ← run.verdict m.decl g
  return ⟨outcome, gain, { g with nodes := gain.coverAll g.nodes }⟩

def fire (run : ClassRun) (gain : Gain) : ClassRun :=
  { run with probes := run.probes.map gain.fire }

theorem fire_nothing (run : ClassRun) : run.fire .nothing = run := by
  have hprobes : run.probes.map Gain.nothing.fire = run.probes :=
    congrArg MethodRun.probes (MethodRun.gather_nothing ⟨{}, run.probes⟩)
  rw [fire, hprobes]

theorem run_mergePrevious_eq (m : MethodDecl) (g : FlowGraph) (run : ClassRun) :
    (mergePrevious m g).run run = match run.verdict m g with
      | .ok (outcome, gain) =>
        .ok (outcome, { g with nodes := gain.coverAll g.nodes }) (run.fire gain)
      | .error e => .error e run := by
  obtain ⟨decl, filter, previous, probes, report⟩ := run
  cases previous with
  | none =>
    simp only [verdict, fire_nothing, Gain.coverAll_nothing]
    rfl
  | some snapshot =>
    change mergePrevious m g _ = _
    simp only [mergePrevious, verdict, MethodRun.run_merge]
    cases MethodRun.verdict decl.name m.matchKey (snapshot.method? m.matchKey) snapshot.probes
      ⟨g, probes⟩ <;> rfl

theorem prepare_of_ofEvents {run : ClassRun} {m : Method} {g : FlowGraph}
    (hg : FlowGraph.ofEvents run.probes m.events = .ok g) :
    run.prepare m = (run.verdict m.decl g).map fun v ↦
      ⟨v.1, v.2, { g with nodes := v.2.coverAll g.nodes }⟩ := by
  rw [prepare, hg]
  change (run.verdict m.decl g >>= fun v ↦ _) = _
  cases run.verdict m.decl g <;> rfl

theorem run_analyze_eq (m : Method) (run : ClassRun) :
    (analyze m).run run = match run.prepare m with
      | .ok p => (run.fire p.gain).conclude p.outcome (run.addGraph m.decl p.graph)
      | .error e => .error e run := by
  cases hg : FlowGraph.ofEvents run.probes m.events with
  | error e =>
    have hprepare : run.prepare m = .error e := by
      rw [prepare, hg]
      rfl
    rw [run_analyze_of_error hg, hprepare]
  | ok g =>
    have hmerge := run_mergePrevious_eq m.decl g run
    rw [prepare_of_ofEvents hg]
    cases hverdict : run.verdict m.decl g with
    | error e =>
      rw [hverdict] at hmerge
      unfold analyze
      simp only [EStateM.run_bind, EStateM.run_get, hg, Update.run_liftM_ok, hmerge]
      rfl
    | ok v =>
      rw [hverdict] at hmerge
      exact run_analyze hg hmerge

theorem analyze_eq_ok_iff {m : Method} {run run' : ClassRun} {outcome : MergeOutcome} :
    (analyze m).run run = .ok outcome run' ↔
      ∃ p report, run.prepare m = .ok p ∧ run.addGraph m.decl p.graph = .ok report ∧
        outcome = p.outcome ∧ run' = { run.fire p.gain with report } := by
  rw [run_analyze_eq]
  cases run.prepare m with
  | error e => simp
  | ok p =>
    simp only [Except.ok.injEq, exists_and_left, exists_eq_left']
    cases run.addGraph m.decl p.graph with
    | error e => simp [conclude]
    | ok report => simp [conclude, eq_comm]

theorem prepare_eq_ok_iff {m : Method} {run : ClassRun} {p : Prepared} :
    run.prepare m = .ok p ↔
      ∃ g, FlowGraph.ofEvents run.probes m.events = .ok g ∧
        run.verdict m.decl g = .ok (p.outcome, p.gain) ∧
        p.graph = { g with nodes := p.gain.coverAll g.nodes } := by
  obtain ⟨outcome, gain, graph⟩ := p
  simp only [prepare, bind_eq_ok_iff]
  refine exists_congr fun g ↦ and_congr Iff.rfl ?_
  constructor
  · rintro ⟨⟨o, k⟩, hverdict, hp⟩
    cases hp
    exact ⟨hverdict, rfl⟩
  · rintro ⟨hverdict, rfl⟩
    exact ⟨_, hverdict, rfl⟩

/-! ## What a method adds to its class -/

/-- The outcome of an analysed method, the probes that it fires, and the report on it. -/
structure Contribution where
  outcome : MergeOutcome
  gain : Gain
  report : MethodReport

def contribution (run : ClassRun) (m : Method) : Except Fault Contribution := do
  let p ← run.prepare m
  let report ← run.methodReport m.decl p.graph
  let _ ← report.containsCode
  return ⟨p.outcome, p.gain, report⟩

end ClassRun

/-- The report with one more method, if code of that is left. -/
def ClassReport.plusCode (r : ClassReport) (m : MethodReport) : ClassReport :=
  if m.hasCode then r.plus m else r

namespace ClassRun

def plus (run : ClassRun) (c : Contribution) : ClassRun :=
  { run.fire c.gain with report := run.report.plusCode c.report }

theorem contribution_eq_ok_iff {m : Method} {run : ClassRun} {c : Contribution} :
    run.contribution m = .ok c ↔ ∃ p, run.prepare m = .ok p ∧
      run.methodReport m.decl p.graph = .ok c.report ∧
      c.report.instructions.items < countBound ∧ c.outcome = p.outcome ∧ c.gain = p.gain := by
  obtain ⟨outcome, gain, report⟩ := c
  simp only [contribution, bind_eq_ok_iff, MethodReport.containsCode_eq_ok_iff]
  refine exists_congr fun p ↦ and_congr Iff.rfl ?_
  constructor
  · rintro ⟨r, hr, b, ⟨-, hb⟩, h⟩
    cases h
    exact ⟨hr, hb, rfl, rfl⟩
  · rintro ⟨hr, hb, rfl, rfl⟩
    exact ⟨report, hr, _, ⟨rfl, hb⟩, rfl⟩

theorem withMethod_eq_ok_iff {run : ClassRun} {m : MethodReport} {report : ClassReport}
    (h : run.report.totals.Fits) : run.withMethod m = .ok report ↔
      m.instructions.items < countBound ∧ report = run.report.plusCode m ∧ report.totals.Fits := by
  simp only [withMethod, bind_eq_ok_iff, MethodReport.containsCode_eq_ok_iff, ClassReport.plusCode]
  cases m.hasCode with
  | false =>
    constructor
    · rintro ⟨b, ⟨rfl, hb⟩, heq⟩
      cases heq
      exact ⟨hb, rfl, h⟩
    · rintro ⟨hb, rfl, -⟩
      exact ⟨false, ⟨rfl, hb⟩, rfl⟩
  | true =>
    constructor
    · rintro ⟨b, ⟨rfl, hb⟩, heq⟩
      obtain ⟨rfl, hfits⟩ := (ClassReport.addMethod_eq_ok_iff h).mp heq
      exact ⟨hb, rfl, hfits⟩
    · rintro ⟨hb, rfl, hfits⟩
      exact ⟨true, ⟨rfl, hb⟩, (ClassReport.addMethod_eq_ok_iff h).mpr ⟨rfl, hfits⟩⟩

/-- An analysis adds the contribution of its method, unless the sum does not fit. -/
theorem analyze_eq_ok_iff_plus {m : Method} {run run' : ClassRun} {outcome : MergeOutcome}
    (h : run.report.totals.Fits) : (analyze m).run run = .ok outcome run' ↔
      ∃ c, run.contribution m = .ok c ∧ outcome = c.outcome ∧ run' = run.plus c ∧
        run'.report.totals.Fits := by
  simp only [analyze_eq_ok_iff, contribution_eq_ok_iff, addGraph, bind_eq_ok_iff,
    withMethod_eq_ok_iff h]
  constructor
  · rintro ⟨p, report, hp, ⟨r, hr, hitems, rfl, hfits⟩, rfl, rfl⟩
    exact ⟨⟨p.outcome, p.gain, r⟩, ⟨p, hp, hr, hitems, rfl, rfl⟩, rfl, rfl, hfits⟩
  · rintro ⟨c, ⟨p, hp, hr, hitems, houtcome, hgain⟩, rfl, rfl, hfits⟩
    exact ⟨p, _, hp, ⟨c.report, hr, hitems, rfl, hfits⟩, houtcome, by rw [plus, hgain]⟩

/-- The methods of a list contribute one after the other. -/
inductive Contributes : ClassRun → List Method → List Contribution → ClassRun → Prop
  | nil {run : ClassRun} : Contributes run [] [] run
  | cons {run run' : ClassRun} {m : Method} {ms : List Method} {c : Contribution}
      {cs : List Contribution} : run.contribution m = .ok c → Contributes (run.plus c) ms cs run' →
        Contributes run (m :: ms) (c :: cs) run'

theorem fits_plusCode {r : ClassReport} {m : MethodReport} (h : (r.plusCode m).totals.Fits) :
    r.totals.Fits := by
  rw [ClassReport.plusCode] at h
  split at h
  · have hsum : (r.totals + m.totals).Fits := h
    exact hsum.of_add
  · exact h

theorem Contributes.fits {run run' : ClassRun} {ms : List Method} {cs : List Contribution}
    (h : Contributes run ms cs run') (hfits : run'.report.totals.Fits) :
    run.report.totals.Fits := by
  induction h with
  | nil => exact hfits
  | cons _ _ ih => exact fits_plusCode (ih hfits)

theorem mapM_analyze_eq_ok_iff {ms : List Method} {run run' : ClassRun}
    {outcomes : List MergeOutcome} (h : run.report.totals.Fits) :
    (ms.mapM analyze).run run = .ok outcomes run' ↔
      ∃ cs, Contributes run ms cs run' ∧ outcomes = cs.map (·.outcome) ∧
        run'.report.totals.Fits := by
  induction ms generalizing run outcomes with
  | nil =>
    constructor
    · intro hrun
      cases hrun
      exact ⟨[], .nil, rfl, h⟩
    · rintro ⟨cs, hcs, rfl, -⟩
      cases hcs
      rfl
  | cons m ms ih =>
    simp only [Update.run_mapM_cons_eq_ok_iff, analyze_eq_ok_iff_plus h]
    constructor
    · rintro ⟨o, t, os, ⟨c, hc, rfl, rfl, hfits⟩, hrest, rfl⟩
      obtain ⟨cs, hcs, rfl, hend⟩ := (ih hfits).mp hrest
      exact ⟨c :: cs, .cons hc hcs, rfl, hend⟩
    · rintro ⟨_, hcs, rfl, hend⟩
      cases hcs with
      | @cons _ _ _ _ c cs hc hcs =>
        have hfits := hcs.fits hend
        exact ⟨c.outcome, run.plus c, cs.map (·.outcome), ⟨c, hc, rfl, rfl, hfits⟩,
          (ih hfits).mpr ⟨cs, hcs, rfl, hend⟩, rfl⟩

end ClassRun

end ProbeCoverage
