import ProbeCoverage.Proofs.DroppedMethods
import ProbeCoverage.Proofs.LineSums

/-!
# From instructions to lines, methods and classes

The reported instructions of a method are counted twice, for the method and for their lines, and
both are counted again for the class. Nothing gets lost on these ways, and nothing is added: each
report is the sum of what it was made from.
-/

namespace ProbeCoverage

/-! ## The accounts -/

/-- The table records the lines of these instructions, each as one item, and shows on each line what
its instructions show. -/
structure LineTable.Accounts (t : LineTable) (l : List Node) : Prop where
  recorded : ∀ line, (t.get? line).isSome = true ↔ ∃ n ∈ l, n.line = some line
  lineAt : ∀ line, t.lineAt line = ((l.filter (·.line = some line)).map Node.lineReport).sum
  instructions : ∀ line r, t.get? line = some r → 1 ≤ r.instructions.items
  status : ∀ line r, t.get? line = some r →
    r.status = ((l.filter (·.line = some line)).flatMap fun n ↦
      [n.instructionCounter.status, n.branchCounter.status]).foldr Status.combine .empty
  covered : ∀ line r, t.get? line = some r →
    r.counter = Counter.one (∃ n ∈ l, n.line = some line ∧ n.isCovered = true)
  counter : ∃ c, t.counter = .ok c ∧ c.items = t.size ∧
    c = (t.toList.map (·.2.counter)).sum

/-- The report adds up these instructions, those on its lines and those without a line. -/
structure MethodReport.Accounts (r : MethodReport) (l : List Node) : Prop where
  instructions : r.instructions = (l.map Node.instructionCounter).sum
  branches : r.branches = (l.map Node.branchCounter).sum
  instructionsByLine : (r.lines.toList.map (·.2.instructions)).sum +
    ((l.filter (·.line = none)).map Node.instructionCounter).sum = r.instructions
  branchesByLine : (r.lines.toList.map (·.2.branches)).sum +
    ((l.filter (·.line = none)).map Node.branchCounter).sum = r.branches
  methods : r.methods = Counter.one (∃ n ∈ l, n.isCovered = true)
  lines : r.lines.Accounts l

/-- The report adds up its methods, which add up these instructions. -/
structure ClassReport.Accounts (c : ClassReport) (ls : List (List Node)) : Prop where
  reports : List.Forall₂ MethodReport.Accounts c.methods.toList ls
  instructions : c.instructions = (c.methods.toList.map (·.instructions)).sum
  branches : c.branches = (c.methods.toList.map (·.branches)).sum
  complexity : c.complexity = (c.methods.toList.map (·.complexity)).sum
  methods : c.methodCounter = (c.methods.toList.map (·.methods)).sum
  items : c.methodCounter.items = c.methods.size
  lineAt : ∀ line, c.lines.lineAt line = (c.methods.toList.map (·.lines.lineAt line)).sum
  recorded : ∀ line, (c.lines.get? line).isSome = true ↔
    ∃ r ∈ c.methods.toList, (r.lines.get? line).isSome = true
  lines : c.lines.Accounts ls.flatten

/-! ## Lines and methods -/

theorem LineTable.accounts_ofNodes {l : List Node}
    (h : ((l.map Node.instructionCounter).sum).Fits) : (ofNodes l).Accounts l where
  recorded := isSome_get?_ofNodes l
  lineAt := lineAt_ofNodes l
  instructions _ _ hr := instructions_pos_of_ofNodes hr
  status line r hr := by
    rw [← lineAt_of_get? hr, lineAt_ofNodes, LineReport.status_sum]
  covered line r hr := by
    rw [counter_of_ofNodes hr]
    simp only [covered_of_ofNodes hr]
  counter :=
    ⟨_, counter_ofNodes h, items_asItems _, (counter_eq_ok_iff.mp (counter_ofNodes h)).1⟩

theorem LineTable.get?_eq_lineAt (t : LineTable) (line : Nat) :
    t.get? line = if (t.get? line).isSome then some (t.lineAt line) else none := by
  rw [lineAt]
  cases t.get? line <;> rfl

/-- There is one table only of the lines of these instructions. -/
theorem LineTable.Accounts.eq_ofNodes {t : LineTable} {l : List Node} (h : t.Accounts l) :
    t = ofNodes l := by
  refine ext_get? fun line ↦ ?_
  have hrecorded : (t.get? line).isSome = ((ofNodes l).get? line).isSome :=
    Bool.eq_iff_iff.mpr ((h.recorded line).trans (isSome_get?_ofNodes l line).symm)
  rw [get?_eq_lineAt t, get?_eq_lineAt (ofNodes l), hrecorded, h.lineAt, lineAt_ofNodes]

theorem MethodReport.accounts_of_tally {g : FlowGraph} {s : Selection} {name desc : String}
    {signature : Option String} {r : MethodReport}
    (h : s.tally g { name, desc, signature } = .ok r) (hfits : r.totals.Fits) :
    r.Accounts (s.reported g) where
  instructions := Selection.instructions_of_tally h
  branches := Selection.branches_of_tally h
  instructionsByLine := by
    rw [Selection.lines_of_tally h, LineTable.sum_instructions_ofNodes,
      Selection.instructions_of_tally h]
  branchesByLine := by
    rw [Selection.lines_of_tally h, LineTable.sum_branches_ofNodes, Selection.branches_of_tally h]
  methods := Selection.methods_of_tally h
  lines := by
    have hinstructions : r.instructions.Fits := hfits.instructions
    rw [Selection.instructions_of_tally h] at hinstructions
    rw [Selection.lines_of_tally h]
    exact LineTable.accounts_ofNodes hinstructions

/-! ## Classes -/

theorem Totals.Fits.of_mem_sum {t : Totals} {ts : List Totals} (h : ts.sum.Fits) (ht : t ∈ ts) :
    t.Fits := by
  induction ts with
  | nil => cases ht
  | cons u ts ih =>
    rw [List.sum_cons] at h
    rcases List.mem_cons.mp ht with rfl | ht
    · exact h.of_add
    · exact ih (add_comm u ts.sum ▸ h).of_add ht

theorem exists_forall₂ {α β : Type} {R : α → β → Prop} {l : List α}
    (h : ∀ a ∈ l, ∃ b, R a b) : ∃ bs, List.Forall₂ R l bs := by
  induction l with
  | nil => exact ⟨[], .nil⟩
  | cons a l ih =>
    obtain ⟨b, hb⟩ := h a List.mem_cons_self
    obtain ⟨bs, hbs⟩ := ih fun a' ha' ↦ h a' (List.mem_cons_of_mem a ha')
    exact ⟨b :: bs, .cons hb hbs⟩

theorem MethodReport.sum_instructions_of_accounts {rs : List MethodReport} {ls : List (List Node)}
    (h : List.Forall₂ Accounts rs ls) :
    (rs.map (·.instructions)).sum = (ls.flatten.map Node.instructionCounter).sum := by
  induction h with
  | nil => rfl
  | cons hr _ ih =>
    rw [List.map_cons, List.sum_cons, ih, hr.instructions, List.flatten_cons, List.map_append,
      List.sum_append]

theorem MethodReport.items_sum_methods_of_accounts {rs : List MethodReport}
    {ls : List (List Node)} (h : List.Forall₂ Accounts rs ls) :
    (rs.map MethodReport.methods).sum.items = rs.length := by
  induction h with
  | nil => rfl
  | cons hr _ ih =>
    rw [List.map_cons, List.sum_cons, Counter.items_add, ih, hr.methods, Counter.items_one,
      List.length_cons, Nat.add_comm]

theorem MethodReport.sum_lines_of_accounts {rs : List MethodReport} {ls : List (List Node)}
    (h : List.Forall₂ Accounts rs ls) : (rs.map (·.lines)).sum = .ofNodes ls.flatten := by
  induction h with
  | nil => rfl
  | cons hr _ ih =>
    rw [List.map_cons, List.sum_cons, ih, hr.lines.eq_ofNodes, List.flatten_cons,
      LineTable.ofNodes_append]

theorem LineTable.isSome_get?_sum {ts : List LineTable} {line : Nat} :
    (ts.sum.get? line).isSome = true ↔ ∃ t ∈ ts, (t.get? line).isSome = true := by
  induction ts with
  | nil => simp
  | cons t ts ih =>
    rw [List.sum_cons, get?_add, Option.isSome_merge, Bool.or_eq_true, ih, List.exists_mem_cons_iff]

theorem ClassReport.totals_foldl_plus (rs : List MethodReport) (c : ClassReport) :
    (rs.foldl plus c).totals = c.totals + (rs.map MethodReport.totals).sum := by
  rw [foldl_plus_eq]
  rfl

/-- A report that adds up the reports on its methods adds up their instructions. -/
theorem ClassReport.accounts_of_totals {c : ClassReport} {ls : List (List Node)}
    (htotals : c.totals = (c.methods.toList.map MethodReport.totals).sum)
    (hreports : List.Forall₂ MethodReport.Accounts c.methods.toList ls)
    (hfits : c.totals.Fits) : c.Accounts ls := by
  have hinstructions : c.instructions = (c.methods.toList.map (·.instructions)).sum := by
    have hsum := congrArg Totals.instructions htotals
    rwa [Totals.instructions_sum, List.map_map] at hsum
  have hmethods : c.methodCounter = (c.methods.toList.map (·.methods)).sum := by
    have hsum := congrArg Totals.methods htotals
    rwa [Totals.methods_sum, List.map_map] at hsum
  have hlines : c.lines = (c.methods.toList.map (·.lines)).sum := by
    have hsum := congrArg Totals.lines htotals
    rwa [Totals.lines_sum, List.map_map] at hsum
  refine ⟨hreports, hinstructions, ?_, ?_, hmethods, ?_, fun line ↦ ?_, fun line ↦ ?_, ?_⟩
  · have hsum := congrArg Totals.branches htotals
    rwa [Totals.branches_sum, List.map_map] at hsum
  · have hsum := congrArg Totals.complexity htotals
    rwa [Totals.complexity_sum, List.map_map] at hsum
  · rw [hmethods, MethodReport.items_sum_methods_of_accounts hreports, Array.length_toList]
  · rw [hlines, LineTable.lineAt_sum, List.map_map]
    rfl
  · rw [hlines, LineTable.isSome_get?_sum]
    simp only [List.mem_map, exists_exists_and_eq_and]
  · have hclass : c.instructions.Fits := hfits.instructions
    rw [hinstructions, MethodReport.sum_instructions_of_accounts hreports] at hclass
    rw [hlines, MethodReport.sum_lines_of_accounts hreports]
    exact LineTable.accounts_ofNodes hclass

/-! ## Analyses -/

namespace ClassRun

variable {run run' : ClassRun} {m : Method} {ms : List Method} {r : MethodReport} {l : List Node}
  {cs : List Contribution}

/-- The report on `m`, which counts the instructions that the decisions leave of it. -/
def Reports (run : ClassRun) (m : Method) (r : MethodReport) (l : List Node) : Prop :=
  ∃ p, run.prepare m = .ok p ∧ run.methodReport m.decl p.graph = .ok r ∧
    l = (Selection.ofDecisions p.graph (run.filter.decisions m.decl p.graph run.decl)).reported
      p.graph

/-- The report on one of the methods, made when the analysis comes to it. -/
def ReportsInTurn (run : ClassRun) (ms : List Method) (r : MethodReport) (l : List Node) : Prop :=
  ∃ before m after outcomes run₀, ms = before ++ m :: after ∧
    (before.mapM analyze).run run = .ok outcomes run₀ ∧ run₀.Reports m r l

theorem Reports.inTurn (h : run.Reports m r l) : run.ReportsInTurn (m :: ms) r l :=
  ⟨[], m, ms, [], run, rfl, rfl, h⟩

theorem ReportsInTurn.cons {outcome : MergeOutcome} (hm : (analyze m).run run = .ok outcome run')
    (h : run'.ReportsInTurn ms r l) : run.ReportsInTurn (m :: ms) r l := by
  obtain ⟨before, n, after, outcomes, run₀, rfl, hbefore, hreports⟩ := h
  exact ⟨m :: before, n, after, outcome :: outcomes, run₀, rfl,
    Update.run_mapM_cons_eq_ok_iff.mpr ⟨outcome, run', outcomes, hm, hbefore, rfl⟩, hreports⟩

theorem exists_reports_of_contribution {c : Contribution} (h : run.contribution m = .ok c) :
    ∃ l, run.Reports m c.report l := by
  obtain ⟨p, hp, hreport, -⟩ := contribution_eq_ok_iff.mp h
  exact ⟨_, p, hp, hreport, rfl⟩

theorem Contributes.exists_reportsInTurn (h : Contributes run ms cs run')
    (hfits : run'.report.totals.Fits) {c : Contribution} (hc : c ∈ cs) :
    ∃ l, run.ReportsInTurn ms c.report l := by
  induction h with
  | nil => cases hc
  | @cons run run' m ms d cs hd hrest ih =>
    rcases List.mem_cons.mp hc with rfl | hc
    · obtain ⟨l, hl⟩ := exists_reports_of_contribution hd
      exact ⟨l, hl.inTurn⟩
    · obtain ⟨l, hl⟩ := ih hfits hc
      have hm : (analyze m).run run = .ok d.outcome (run.plus d) :=
        (analyze_eq_ok_iff_plus ((Contributes.cons hd hrest).fits hfits)).mpr
          ⟨d, hd, rfl, rfl, hrest.fits hfits⟩
      exact ⟨l, hl.cons hm⟩

theorem ReportsInTurn.accounts (h : run.ReportsInTurn ms r l) (hfits : r.totals.Fits) :
    r.Accounts l := by
  obtain ⟨-, m, -, -, run₀, -, -, p, -, hreport, rfl⟩ := h
  exact MethodReport.accounts_of_tally hreport hfits

/-- Nothing is lost and nothing is counted twice: after an analysis that succeeded, every report on
a method adds up the instructions that were left of it, and the report on the class adds up the
reports on its methods. -/
theorem accounts_of_mapM_analyze {decl : ClassDecl} {filter : Filter} {previous : Option Snapshot}
    {probes : Option (Array Bool)} {outcomes : List MergeOutcome}
    (h : (ms.mapM analyze).run (start decl filter previous probes) = .ok outcomes run) :
    ∃ ls, List.Forall₂ ((start decl filter previous probes).ReportsInTurn ms)
        run.report.methods.toList ls ∧ run.report.Accounts ls := by
  obtain ⟨cs, hcs, -, hfits⟩ := (mapM_analyze_eq_ok_iff (ClassReport.fits_ofClass decl)).mp h
  have hreport := report_foldl_plus cs (start decl filter previous probes)
  have hmethods : run.report.methods.toList = (cs.map (·.report)).filter (·.hasCode) := by
    rw [hcs.eq_foldl_plus]
    exact methods_foldl_plus cs _
  have htotals : run.report.totals = (run.report.methods.toList.map MethodReport.totals).sum := by
    have hsum := congrArg ClassReport.totals hreport
    rw [← hcs.eq_foldl_plus, ← hmethods, ClassReport.totals_foldl_plus] at hsum
    exact hsum.trans (zero_add _)
  obtain ⟨ls, hls⟩ := exists_forall₂ (R := (start decl filter previous probes).ReportsInTurn ms)
    (l := run.report.methods.toList) fun r hr ↦ by
      rw [hmethods] at hr
      obtain ⟨c, hc, rfl⟩ := List.mem_map.mp (List.mem_of_mem_filter hr)
      exact hcs.exists_reportsInTurn hfits hc
  refine ⟨ls, hls, ClassReport.accounts_of_totals htotals ?_ hfits⟩
  refine ((List.forall₂_and_left ..).mpr ⟨fun r hr ↦ ?_, hls⟩).imp fun r l h ↦ h.2.accounts h.1
  exact (htotals ▸ hfits).of_mem_sum (List.mem_map_of_mem hr)

/-- Three instructions, the first of which has no line, and a probe on the second. -/
def overlapping (name : String) (probe : Nat) : Method where
  decl := { access := ⟨1⟩, name, desc := "()V" }
  events := [.instruction ⟨0⟩ (some "load"), .line 3, .instruction ⟨1⟩ (some "if"), .probe probe 0,
    .noSuccessor, .instruction ⟨2⟩ (some "return"), .endMethod]

/-- Gives the second instruction of every method a branch to each of the others. -/
def rewiring : Filter where
  name := "rewiring"
  decisions _ _ _ := [.retarget ⟨1⟩ [⟨0⟩, ⟨2⟩]]

theorem accounts_of_mapM_analyze_overlapping :
    ∃ run ls, ([overlapping "f" 0, codeless, overlapping "g" 1].mapM analyze).run
          (start { name := "A" } rewiring none (some #[true, false])) =
        .ok [.noPrevious, .noPrevious, .noPrevious] run ∧
      run.report.instructions = ⟨4, 2⟩ ∧ run.report.branches = ⟨3, 1⟩ ∧
      List.Forall₂ ((start { name := "A" } rewiring none (some #[true, false])).ReportsInTurn
        [overlapping "f" 0, codeless, overlapping "g" 1]) run.report.methods.toList ls ∧
      run.report.Accounts ls := by
  have hanswer : ([overlapping "f" 0, codeless, overlapping "g" 1].mapM analyze).answer
      (start { name := "A" } rewiring none (some #[true, false])) =
        .ok [.noPrevious, .noPrevious, .noPrevious] := by decide +kernel
  have hcounters : (fun c : ClassReport ↦ (c.instructions, c.branches))
      (([overlapping "f" 0, codeless, overlapping "g" 1].mapM analyze).final
        (start { name := "A" } rewiring none (some #[true, false]))).report =
          (⟨4, 2⟩, ⟨3, 1⟩) := by decide +kernel
  obtain ⟨run, hrun⟩ := Update.exists_run_of_answer hanswer
  rw [Update.final, hrun] at hcounters
  obtain ⟨hinstructions, hbranches⟩ := Prod.mk.inj hcounters
  obtain ⟨ls, hls, haccounts⟩ := accounts_of_mapM_analyze hrun
  exact ⟨run, ls, hrun, hinstructions, hbranches, hls, haccounts⟩

end ClassRun

end ProbeCoverage
