import ProbeCoverage.Proofs.MethodAnalysis
import ProbeCoverage.Proofs.SessionRerun

/-!
# The order of the methods does not matter

The methods of a class share the probe array, and each may fire probes of it. Where their probes lie
in intervals apart from each other, no method reads what another one fires; so each of them
contributes what it would if it were the first, and contributions add up in any order.
-/

namespace ProbeCoverage

theorem Method.Apart.symm {m n : Method} (h : m.Apart n) : n.Apart m := by
  rcases h with h | h
  · right
    exact fun i j hi hj ↦ h j i hj hi
  · left
    exact fun i j hi hj ↦ h j i hj hi

/-! ## What a method fires -/

namespace ClassRun

variable {run run' : ClassRun} {m n : Method}

theorem kept_of_fired {p : Prepared} (h : run.prepare m = .ok p) {i : Nat}
    (hi : p.gain.fired i = true) : Stream.Kept m.events i := by
  obtain ⟨outcome, gain, graph⟩ := p
  obtain ⟨g, hg, hverdict, -⟩ := prepare_eq_ok_iff.mp h
  rw [verdict] at hverdict
  split at hverdict
  · cases hverdict
    cases hi
  · obtain ⟨-, hsome, _, s, _, _, -, hs, -, -, hcontains, -⟩ := (MethodRun.fired_iff hverdict).mp hi
    obtain ⟨w, hw⟩ := Option.isSome_iff_exists.mp hsome
    have hprobes : run.probes = some w := hw
    exact (contains_probeSpan_iff (hprobes ▸ hg) hs).mp hcontains

/-! ## What a method reads -/

/-- The runs are the same to the method. -/
structure AlikeFor (m : Method) (run run' : ClassRun) : Prop where
  decl : run'.decl = run.decl
  filter : run'.filter = run.filter
  previous : run'.previous = run.previous
  size : run'.probes.map (·.size) = run.probes.map (·.size)
  fires : ∀ i, Stream.Uses m.events i → fires run'.probes i = fires run.probes i

theorem AlikeFor.symm (h : AlikeFor m run run') : AlikeFor m run' run where
  decl := h.decl.symm
  filter := h.filter.symm
  previous := h.previous.symm
  size := h.size.symm
  fires i hi := (h.fires i hi).symm

theorem AlikeFor.prepare {p : Prepared} (h : AlikeFor m run run') (hp : run.prepare m = .ok p) :
    run'.prepare m = .ok p := by
  obtain ⟨g, hg, hverdict, hgraph⟩ := prepare_eq_ok_iff.mp hp
  have hg' : FlowGraph.ofEvents run'.probes m.events = .ok g := by
    refine FlowGraph.ofEvents_congr hg (fun i hi a ha ↦ ?_) h.fires
    have hsize := h.size
    rw [ha, Option.map_some] at hsize
    obtain ⟨b, hb, hab⟩ := Option.map_eq_some_iff.mp hsize.symm
    rw [← hab]
    exact FlowGraph.readable_of_ofEvents hg hi b hb
  refine prepare_eq_ok_iff.mpr ⟨g, hg', ?_, hgraph⟩
  rw [← hverdict, verdict, verdict, h.previous, h.decl]
  cases run.previous with
  | none => rfl
  | some snapshot =>
    have hshape : MethodRun.SameShape ⟨g, run'.probes⟩ ⟨g, run.probes⟩ := ⟨rfl, h.size⟩
    exact MethodRun.verdict_of_sameShape hshape _ _ _ _

theorem AlikeFor.contribution {c : Contribution} (h : AlikeFor m run run')
    (hc : run.contribution m = .ok c) : run'.contribution m = .ok c := by
  obtain ⟨p, hp, hreport, hitems, houtcome, hgain⟩ := contribution_eq_ok_iff.mp hc
  refine contribution_eq_ok_iff.mpr ⟨p, h.prepare hp, ?_, hitems, houtcome, hgain⟩
  rw [← hreport, methodReport, methodReport, h.filter, h.decl]

/-- What one method fires is not looked at by a method whose probes are apart. -/
theorem alikeFor_plus {c : Contribution} (hc : run.contribution m = .ok c) (hapart : m.Apart n) :
    AlikeFor n run (run.plus c) where
  decl := rfl
  filter := rfl
  previous := rfl
  size := by simp [plus, fire, Function.comp_def]
  fires i hi := by
    obtain ⟨p, hp, -, -, -, hgain⟩ := contribution_eq_ok_iff.mp hc
    rw [Bool.eq_iff_iff]
    refine fires_map_fire.trans (or_iff_left fun hfired ↦ ?_)
    exact not_uses_of_kept hapart (kept_of_fired hp (hgain ▸ hfired.2)) hi

theorem contribution_plus_iff {c d : Contribution} (hc : run.contribution m = .ok c)
    (hapart : m.Apart n) : (run.plus c).contribution n = .ok d ↔ run.contribution n = .ok d :=
  ⟨(alikeFor_plus hc hapart).symm.contribution, (alikeFor_plus hc hapart).contribution⟩

/-! ## All methods -/

theorem Contributes.unique {ms : List Method} {cs ds : List Contribution} {run₁ run₂ : ClassRun}
    (h : Contributes run ms cs run₁) (h' : Contributes run ms ds run₂) : cs = ds ∧ run₁ = run₂ := by
  induction h generalizing ds with
  | nil =>
    cases h'
    exact ⟨rfl, rfl⟩
  | cons hc _ ih =>
    cases h' with
    | cons hd hrest =>
      cases hc.symm.trans hd
      obtain ⟨rfl, rfl⟩ := ih hrest
      exact ⟨rfl, rfl⟩

theorem Contributes.exists_contribution {ms : List Method} {cs : List Contribution}
    (h : Contributes run ms cs run') (hapart : ms.Pairwise Method.Apart) :
    ∀ m ∈ ms, ∃ c, run.contribution m = .ok c := by
  induction h with
  | nil => simp
  | cons hc _ ih =>
    obtain ⟨hm, hms⟩ := List.pairwise_cons.mp hapart
    intro n hn
    rcases List.mem_cons.mp hn with rfl | hn
    · exact ⟨_, hc⟩
    · obtain ⟨d, hd⟩ := ih hms n hn
      exact ⟨d, (contribution_plus_iff hc (hm n hn)).mp hd⟩

/-- Every method contributes as if it were the first. -/
theorem contributes_map {f : Method → Contribution} {ms : List Method}
    (hapart : ms.Pairwise Method.Apart) (hf : ∀ m ∈ ms, run.contribution m = .ok (f m)) :
    Contributes run ms (ms.map f) ((ms.map f).foldl plus run) := by
  induction ms generalizing run with
  | nil => exact .nil
  | cons m ms ih =>
    obtain ⟨hm, hms⟩ := List.pairwise_cons.mp hapart
    have hc := hf m List.mem_cons_self
    refine .cons hc (ih hms fun n hn ↦ ?_)
    exact (contribution_plus_iff hc (hm n hn)).mpr (hf n (List.mem_cons_of_mem m hn))

end ClassRun

/-! ## The sum of the contributions -/

theorem ClassReport.foldl_plus_eq (ms : List MethodReport) (r : ClassReport) :
    ms.foldl plus r = { r with
      methods := r.methods ++ ms.toArray
      instructions := r.instructions + (ms.map MethodReport.totals).sum.instructions
      branches := r.branches + (ms.map MethodReport.totals).sum.branches
      complexity := r.complexity + (ms.map MethodReport.totals).sum.complexity
      methodCounter := r.methodCounter + (ms.map MethodReport.totals).sum.methods
      lines := r.lines + (ms.map MethodReport.totals).sum.lines } := by
  induction ms generalizing r with
  | nil => simp
  | cons m ms ih =>
    rw [List.foldl_cons, ih]
    simp [plus, MethodReport.totals, add_assoc]

theorem ClassReport.foldl_plus_perm {ms ms' : List MethodReport} (h : ms'.Perm ms)
    (r : ClassReport) :
    ms'.foldl plus r = { ms.foldl plus r with methods := (ms'.foldl plus r).methods } := by
  have hsum := (h.map MethodReport.totals).sum_eq
  rw [foldl_plus_eq ms' r, foldl_plus_eq ms r, hsum]

namespace ClassRun

variable {cs cs' : List Contribution}

theorem report_foldl_plus (cs : List Contribution) (run : ClassRun) :
    (cs.foldl plus run).report =
      ((cs.map (·.report)).filter (·.hasCode)).foldl ClassReport.plus run.report := by
  induction cs generalizing run with
  | nil => rfl
  | cons c cs ih =>
    rw [List.foldl_cons, ih, List.map_cons, List.filter_cons]
    have hreport : (run.plus c).report = run.report.plusCode c.report := rfl
    rw [hreport, ClassReport.plusCode]
    split
    · rfl
    · rfl

theorem methods_foldl_plus (cs : List Contribution) (run : ClassRun) :
    (cs.foldl plus run).report.methods.toList =
      run.report.methods.toList ++ (cs.map (·.report)).filter (·.hasCode) := by
  rw [report_foldl_plus, ClassReport.foldl_plus_eq, Array.toList_append]

/-- But for the order in which it lists the methods, the report does not depend on it. -/
theorem report_foldl_plus_perm (h : cs'.Perm cs) (run : ClassRun) :
    (cs'.foldl plus run).report =
      { (cs.foldl plus run).report with methods := (cs'.foldl plus run).report.methods } := by
  rw [report_foldl_plus, report_foldl_plus]
  exact ClassReport.foldl_plus_perm ((h.map (·.report)).filter (·.hasCode)) run.report

theorem probes_foldl_plus (cs : List Contribution) (run : ClassRun) :
    (cs.foldl plus run).probes =
      cs.foldl (fun probes c ↦ probes.map c.gain.fire) run.probes := by
  induction cs generalizing run with
  | nil => rfl
  | cons c cs ih => exact ih (run.plus c)

theorem probes_foldl_plus_perm (h : cs'.Perm cs) (run : ClassRun) :
    (cs'.foldl plus run).probes = (cs.foldl plus run).probes := by
  have hcomm : RightCommutative fun (probes : Option (Array Bool)) (c : Contribution) ↦
      probes.map c.gain.fire := ⟨fun probes c d ↦ by
    simp only [Option.map_map, Function.comp_def, Gain.fire_comm]⟩
  rw [probes_foldl_plus, probes_foldl_plus]
  exact h.foldl_eq run.probes

/-- Analysed in another order, every method has the same outcome and the same report, and the class
has the same counters, lines and probes. -/
theorem mapM_analyze_perm {decl : ClassDecl} {filter : Filter} {previous : Option Snapshot}
    {probes : Option (Array Bool)} {ms ms' : List Method} {outcomes : List MergeOutcome}
    {run : ClassRun} (hapart : ms.Pairwise Method.Apart) (hperm : ms'.Perm ms)
    (h : (ms.mapM analyze).run (start decl filter previous probes) = .ok outcomes run) :
    ∃ (outcome : Method → MergeOutcome) (report : Method → MethodReport) (run' : ClassRun),
      (ms'.mapM analyze).run (start decl filter previous probes) =
          .ok (ms'.map outcome) run' ∧
        outcomes = ms.map outcome ∧
        run.report.methods.toList = (ms.map report).filter (·.hasCode) ∧
        run'.report.methods.toList = (ms'.map report).filter (·.hasCode) ∧
        run'.report = { run.report with methods := run'.report.methods } ∧
        run'.probes = run.probes := by
  have hfits := ClassReport.fits_ofClass decl
  obtain ⟨cs, hcs, rfl, hend⟩ := (mapM_analyze_eq_ok_iff hfits).mp h
  have : Nonempty Contribution :=
    ⟨.noPrevious, .nothing, { name := "", desc := "", signature := none }⟩
  -- what each method contributes does not depend on its place, so both orders share one choice
  choose! f hf using hcs.exists_contribution hapart
  obtain ⟨rfl, rfl⟩ := hcs.unique (contributes_map hapart hf)
  have hapart' : ms'.Pairwise Method.Apart := (hperm.pairwise_iff Method.Apart.symm).mpr hapart
  have hcs' := contributes_map hapart' fun m hm ↦ hf m (hperm.mem_iff.mp hm)
  have hreport := report_foldl_plus_perm (hperm.map f) (start decl filter previous probes)
  have hend' : ((ms'.map f).foldl plus
      (start decl filter previous probes)).report.totals.Fits := by
    rw [hreport]
    exact hend
  refine ⟨fun m ↦ (f m).outcome, fun m ↦ (f m).report, _,
    (mapM_analyze_eq_ok_iff hfits).mpr ⟨_, hcs', ?_, hend'⟩, ?_, ?_, ?_, hreport,
    probes_foldl_plus_perm (hperm.map f) _⟩
  · rw [List.map_map]
    rfl
  · rw [List.map_map]
    rfl
  · rw [methods_foldl_plus, List.map_map]
    rfl
  · rw [methods_foldl_plus, List.map_map]
    rfl

/-- A method of one instruction, with a probe. -/
def returning (name : String) (probe : Nat) : Method where
  decl := { access := ⟨1⟩, name, desc := "()V" }
  events := [.instruction ⟨0⟩ (some "return"), .probe probe 0, .endMethod]

def codeless : Method where
  decl := { access := Access.abstract, name := "h", desc := "()V" }
  events := [.endMethod]

theorem uses_returning {name : String} {probe i : Nat} :
    Stream.Uses (returning name probe).events i ↔ i = probe := by
  simp [Stream.Uses, returning]

theorem apart_returning : [returning "f" 0, returning "g" 1, codeless].Pairwise Method.Apart := by
  have hfg : (returning "f" 0).Apart (returning "g" 1) := by
    left
    intro i j hi hj
    rw [uses_returning] at hi hj
    omega
  have hnone : ∀ m : Method, m.Apart codeless := by
    rintro m
    left
    rintro i j - ⟨b, hb⟩
    simp [codeless] at hb
  simp [hfg, hnone]

theorem mapM_analyze_perm_returning :
    ∃ snapshot run run', ∃ outcome : Method → MergeOutcome,
      Snapshot.capture [returning "f" 0] (some #[true]) = .ok snapshot ∧
      ([returning "f" 0, returning "g" 1, codeless].mapM analyze).run
          (start { name := "A" } (.chain []) (some snapshot) (some #[false, false])) =
        .ok [.merged, .noPrevious, .noPrevious] run ∧
      ([codeless, returning "g" 1, returning "f" 0].mapM analyze).run
          (start { name := "A" } (.chain []) (some snapshot) (some #[false, false])) =
        .ok [outcome codeless, outcome (returning "g" 1), outcome (returning "f" 0)] run' ∧
      run'.report = { run.report with methods := run'.report.methods } ∧
      run'.probes = run.probes := by
  obtain ⟨snapshot, hsnapshot⟩ : ∃ snapshot,
      Snapshot.capture [returning "f" 0] (some #[true]) = .ok snapshot :=
    exists_eq_ok (by decide +kernel)
  have hanswer : ((Snapshot.capture [returning "f" 0] (some #[true])).map fun snapshot ↦
      ([returning "f" 0, returning "g" 1, codeless].mapM analyze).answer
        (start { name := "A" } (.chain []) (some snapshot) (some #[false, false]))) =
      .ok (.ok [.merged, .noPrevious, .noPrevious]) := by decide +kernel
  rw [hsnapshot] at hanswer
  obtain ⟨run, hrun⟩ := Update.exists_run_of_answer (Except.ok.inj hanswer)
  have hperm : [codeless, returning "g" 1, returning "f" 0].Perm
      [returning "f" 0, returning "g" 1, codeless] := List.reverse_perm [_, _, _]
  obtain ⟨outcome, report, run', hrun', -, -, -, hreport, hprobes⟩ :=
    mapM_analyze_perm apart_returning hperm hrun
  exact ⟨snapshot, run, run', outcome, hsnapshot, hrun, hrun', hreport, hprobes⟩

end ClassRun

end ProbeCoverage
