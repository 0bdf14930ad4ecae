import ProbeCoverage.ClassRun
import ProbeCoverage.Proofs.Counting

/-!
# Capturing and analysing methods

What a snapshot holds after the methods of a class were captured, and how the analysis of one method
ends: with the report on its graph added to that on the class, or with a fault.
-/

namespace ProbeCoverage

/-! ## Captured methods -/

namespace Snapshot

theorem method?_insert (s : Snapshot) (key k : String) (m : Imprint) :
    (s.insert key m).method? k = if key = k then some m else s.method? k := by
  simp [method?, insert, Std.ExtTreeMap.getElem?_insert]

theorem captureMethod_eq_ok_iff {s s' : Snapshot} {m : Method} (hcode : m.decl.hasNoCode = false) :
    s.captureMethod m = .ok s' ↔ ∃ g, FlowGraph.ofEvents s.probes m.events = .ok g ∧
      s' = g.imprint?.elim s (s.insert m.decl.matchKey) := by
  unfold captureMethod
  rw [hcode]
  cases FlowGraph.ofEvents s.probes m.events with
  | error e =>
    constructor
    · intro h
      cases h
    · rintro ⟨g, hg, -⟩
      cases hg
  | ok g =>
    constructor
    · intro h
      cases h
      exact ⟨g, rfl, rfl⟩
    · rintro ⟨g', hg', rfl⟩
      cases hg'
      rfl

theorem of_captureMethod {s s' : Snapshot} {m : Method} (hcode : m.decl.hasNoCode = false)
    (h : s.captureMethod m = .ok s') : s'.probes = s.probes ∧
      (∀ key, key ≠ m.decl.matchKey → s'.method? key = s.method? key) ∧
      ∃ g, FlowGraph.ofEvents s.probes m.events = .ok g ∧
        ∀ i, g.imprint? = some i → s'.method? m.decl.matchKey = some i := by
  obtain ⟨g, hg, rfl⟩ := (captureMethod_eq_ok_iff hcode).mp h
  cases hi : g.imprint? with
  | none => exact ⟨rfl, fun _ _ ↦ rfl, g, hg, by simp [hi]⟩
  | some i =>
    refine ⟨rfl, fun key hkey ↦ ?_, g, hg, fun i' hi' ↦ ?_⟩
    · rw [Option.elim_some, method?_insert, if_neg (Ne.symm hkey)]
    · rw [Option.elim_some, method?_insert, if_pos rfl]
      exact hi.symm.trans hi'

/-- A snapshot holds the imprint of every method that has one. -/
theorem of_capture {ms : List Method} {s s' : Snapshot} (h : ms.foldlM captureMethod s = .ok s')
    (hcode : ∀ m ∈ ms, m.decl.hasNoCode = false)
    (hkeys : (ms.map (·.decl.matchKey)).Nodup) : s'.probes = s.probes ∧
      (∀ key, key ∉ ms.map (·.decl.matchKey) → s'.method? key = s.method? key) ∧
      ∀ m ∈ ms, ∃ g, FlowGraph.ofEvents s.probes m.events = .ok g ∧
        ∀ i, g.imprint? = some i → s'.method? m.decl.matchKey = some i := by
  induction ms generalizing s with
  | nil =>
    cases h
    exact ⟨rfl, fun _ _ ↦ rfl, by simp⟩
  | cons m ms ih =>
    rw [List.foldlM_cons] at h
    cases hm : s.captureMethod m with
    | error e =>
      rw [hm] at h
      cases h
    | ok s₁ =>
      rw [hm] at h
      rw [List.map_cons, List.nodup_cons] at hkeys
      obtain ⟨hprobes₁, hother₁, hown₁⟩ := of_captureMethod (hcode m List.mem_cons_self) hm
      obtain ⟨hprobes, hother, hown⟩ :=
        ih h (fun n hn ↦ hcode n (List.mem_cons_of_mem m hn)) hkeys.2
      refine ⟨hprobes.trans hprobes₁, fun key hkey ↦ ?_, fun n hn ↦ ?_⟩
      · rw [List.map_cons, List.mem_cons, not_or] at hkey
        rw [hother key hkey.2, hother₁ key hkey.1]
      · rcases List.mem_cons.mp hn with rfl | hn
        · obtain ⟨g, hg, himprint⟩ := hown₁
          refine ⟨g, hg, fun i hi ↦ ?_⟩
          rw [hother _ hkeys.1]
          exact himprint i hi
        · obtain ⟨g, hg, himprint⟩ := hown n hn
          exact ⟨g, hprobes₁ ▸ hg, himprint⟩

end Snapshot

/-! ## One method -/

namespace ClassRun

/-- The report of the class with that of a method, if code of it is left. -/
def withMethod (run : ClassRun) (report : MethodReport) : Except Fault ClassReport := do
  if ← report.containsCode then run.report.addMethod report else return run.report

def addGraph (run : ClassRun) (m : MethodDecl) (graph : FlowGraph) : Except Fault ClassReport :=
  run.methodReport m graph >>= run.withMethod

/-- The items of a method that are left to be counted by its class. -/
def items (run : ClassRun) (m : Method) : Nat :=
  match FlowGraph.ofEvents run.probes m.events with
  | .ok g => (Selection.ofDecisions g (run.filter.decisions m.decl g run.decl)).items g
  | .error _ => 0

/-- The items that are left of a graph after the filter. -/
def graphItems (run : ClassRun) (m : MethodDecl) (g : FlowGraph) : Nat :=
  (Selection.ofDecisions g (run.filter.decisions m g run.decl)).items g

theorem counts_graph {run : ClassRun} {n : Nat} (h : run.report.Within n) (m : MethodDecl)
    (g : FlowGraph) :
    Counts (n + run.graphItems m g) (·.Within (n + run.graphItems m g)) (run.addGraph m g) := by
  have hle : run.graphItems m g ≤ n + run.graphItems m g := Nat.le_add_left _ n
  have htally := Selection.counts_tally (MethodReport.within_empty m.name m.desc m.signature 0) g
    (Selection.ofDecisions g (run.filter.decisions m g run.decl))
  rw [Nat.zero_add] at htally
  apply Counts.bind (htally.mono hle fun _ hr ↦ hr)
  intro report hreport
  apply Counts.bind ((MethodReport.counts_containsCode hreport).mono hle fun _ hc ↦ hc)
  intro contains _
  cases contains with
  | false => exact Counts.ok (h.mono (Nat.le_add_right n _))
  | true => exact ClassReport.counts_addMethod h hreport

theorem counts_addGraph {run : ClassRun} {m : Method} {g : FlowGraph} {n : Nat}
    (hg : FlowGraph.ofEvents run.probes m.events = .ok g) (h : run.report.Within n) :
    Counts (n + run.items m) (·.Within (n + run.items m)) (run.addGraph m.decl g) := by
  have hitems : run.items m = run.graphItems m.decl g := by
    rw [items, hg, graphItems]
  rw [hitems]
  exact counts_graph h m.decl g

/-- Counting fails by overflow only, whatever has been counted before. -/
theorem eq_overflow_of_addGraph {run : ClassRun} {m : MethodDecl} {g : FlowGraph} {e : Fault}
    (h : run.addGraph m g = .error e) : e = .overflow := by
  obtain ⟨n, hn⟩ := run.report.exists_within
  have hcounts := counts_graph hn m g
  rw [h] at hcounts
  exact hcounts.1

def conclude {α : Type} (run : ClassRun) (a : α) :
    Except Fault ClassReport → EStateM.Result Fault ClassRun α
  | .ok report => .ok a { run with report }
  | .error e => .error e run

theorem run_addReport (run : ClassRun) (report : MethodReport) :
    (addReport report).run run = run.conclude () (run.withMethod report) := by
  unfold addReport withMethod
  rw [EStateM.run_bind]
  cases report.containsCode with
  | error e => rfl
  | ok contains =>
    cases contains with
    | false => rfl
    | true =>
      simp only [Update.run_liftM_ok, if_true, EStateM.run_bind, EStateM.run_get]
      change _ = run.conclude () (run.report.addMethod report)
      cases run.report.addMethod report <;> rfl

theorem run_analyze {run run₁ : ClassRun} {m : Method} {g g₁ : FlowGraph} {outcome : MergeOutcome}
    (hg : FlowGraph.ofEvents run.probes m.events = .ok g)
    (hmerge : (mergePrevious m.decl g).run run = .ok (outcome, g₁) run₁) :
    (analyze m).run run = run₁.conclude outcome (run₁.addGraph m.decl g₁) := by
  unfold analyze addGraph
  simp only [EStateM.run_bind, EStateM.run_get, hg, Update.run_liftM_ok, hmerge]
  cases run₁.methodReport m.decl g₁ with
  | error e => rfl
  | ok report =>
    change _ = run₁.conclude outcome (run₁.withMethod report)
    simp only [Update.run_liftM_ok, run_addReport]
    cases run₁.withMethod report <;> rfl

theorem run_analyze_of_error {run : ClassRun} {m : Method} {e : Fault}
    (hg : FlowGraph.ofEvents run.probes m.events = .error e) :
    (analyze m).run run = .error e run := by
  unfold analyze
  simp only [EStateM.run_bind, EStateM.run_get, hg, Update.run_liftM_error]

theorem run_mergePrevious_none {run : ClassRun} (h : run.previous = none) (m : MethodDecl)
    (g : FlowGraph) : (mergePrevious m g).run run = .ok (.noPrevious, g) run := by
  change mergePrevious m g run = _
  rw [mergePrevious, h]

theorem run_mergePrevious {run : ClassRun} {snapshot : Snapshot} {m : MethodDecl} {g : FlowGraph}
    {outcome : MergeOutcome} {merged : MethodRun} (h : run.previous = some snapshot)
    (hmerge : (MethodRun.merge run.decl.name m.matchKey (snapshot.method? m.matchKey)
      snapshot.probes).run ⟨g, run.probes⟩ = .ok outcome merged) :
    (mergePrevious m g).run run =
      .ok (outcome, merged.graph) { run with probes := merged.probes } := by
  change mergePrevious m g run = _
  rw [mergePrevious, h]
  simp only [hmerge]

/-- Without a previous run, the graphs of the methods are those of the array as it stands. -/
theorem exists_ofEvents_of_mapM {ms : List Method} {run run' : ClassRun}
    {outcomes : List MergeOutcome} (h : (ms.mapM analyze).run run = .ok outcomes run')
    (hprevious : run.previous = none) :
    ∀ m ∈ ms, ∃ g, FlowGraph.ofEvents run.probes m.events = .ok g := by
  induction ms generalizing run outcomes with
  | nil => simp
  | cons m ms ih =>
    obtain ⟨o, t, os, hm, hms, -⟩ := Update.run_mapM_cons_eq_ok_iff.mp h
    cases hg : FlowGraph.ofEvents run.probes m.events with
    | error e =>
      rw [run_analyze_of_error hg] at hm
      cases hm
    | ok g =>
      rw [run_analyze hg (run_mergePrevious_none hprevious m.decl g)] at hm
      cases hadd : run.addGraph m.decl g with
      | error e =>
        rw [hadd] at hm
        cases hm
      | ok report =>
        rw [hadd] at hm
        cases hm
        intro n hn
        rcases List.mem_cons.mp hn with rfl | hn
        · exact ⟨g, hg⟩
        · exact ih hms hprevious n hn

end ClassRun

end ProbeCoverage
