import ProbeCoverage.Proofs.MatchKey
import ProbeCoverage.Proofs.RejectedMethods
import ProbeCoverage.Proofs.SpanWidth

/-!
# The working array

The methods of a class share one probe array, which merges change. It keeps its length, and an entry
is only ever set: by a merge that took place, within the span of its graph, and because the
counterpart of the probe had fired in the previous run. The graph of a method lies within the
working array as it stands, and a captured snapshot within its own array; so no merge reaches beyond
either of them.
-/

namespace ProbeCoverage

namespace Snapshot

/-- The snapshot was captured from a run of a class. -/
def Captured (snapshot : Snapshot) : Prop := ∃ ms probes, capture ms probes = .ok snapshot

/-- Each imprint is that of a graph which was recorded with the array beside it. -/
def Recorded (snapshot : Snapshot) : Prop :=
  ∀ key imprint, snapshot.method? key = some imprint →
    ∃ es g, FlowGraph.ofEvents snapshot.probes es = .ok g ∧ g.imprint? = some imprint

variable {snapshot s s' : Snapshot} {m : Method}

theorem exists_of_imprintOf {probes : Option (Array Bool)} {imprint : Imprint}
    (h : imprintOf probes m = some imprint) :
    ∃ g, FlowGraph.ofEvents probes m.events = .ok g ∧ g.imprint? = some imprint := by
  rw [imprintOf] at h
  split at h
  · cases h
  · obtain ⟨g, hg, himprint⟩ := Option.bind_eq_some_iff.mp h
    cases hes : FlowGraph.ofEvents probes m.events with
    | error e =>
      rw [hes] at hg
      cases hg
    | ok k =>
      rw [hes] at hg
      cases hg
      exact ⟨g, rfl, himprint⟩

theorem Recorded.captureMethod (h : s.Recorded) (hm : s.captureMethod m = .ok s') :
    s'.Recorded := by
  obtain rfl := eq_of_captureMethod hm
  cases himprint : imprintOf s.probes m with
  | none => exact h
  | some imprint =>
    intro key i hi
    rw [Option.elim_some, method?_insert] at hi
    split at hi
    · cases hi
      obtain ⟨g, hg, hg'⟩ := exists_of_imprintOf himprint
      exact ⟨m.events, g, hg, hg'⟩
    · exact h key i hi

theorem Captured.recorded (h : snapshot.Captured) : snapshot.Recorded := by
  obtain ⟨ms, probes, hcapture⟩ := h
  have hempty : Recorded { probes } := fun key imprint himprint ↦ by
    have hnone : Snapshot.method? { probes } key = none := Std.ExtTreeMap.getElem?_empty
    rw [hnone] at himprint
    cases himprint
  rw [capture] at hcapture
  generalize ({ probes } : Snapshot) = s at hempty hcapture
  induction ms generalizing s with
  | nil =>
    cases hcapture
    exact hempty
  | cons m ms ih =>
    rw [List.foldlM_cons, bind_eq_ok_iff] at hcapture
    obtain ⟨s₁, hm, hms⟩ := hcapture
    exact ih s₁ (hempty.captureMethod hm) hms

theorem Recorded.last_lt_size (h : snapshot.Recorded) {key : String} {imprint : Imprint}
    (himprint : snapshot.method? key = some imprint) {t : ProbeSpan}
    (ht : imprint.probeSpan = some t) {q : Array Bool} (hq : snapshot.probes = some q) :
    t.last < q.size := by
  obtain ⟨es, g, hg, hg'⟩ := h key imprint himprint
  exact FlowGraph.readable_of_ofEvents hg (uses_last_imprint hg hg' ht) q hq

end Snapshot

namespace ClassRun

variable {run : ClassRun} {m : Method} {d : MethodDecl} {g : FlowGraph}

/-! ## The merge of one method -/

/-- A merge that takes place sets probe `i` in the array of the run: it lies in the span of the
graph of the method, and its counterpart in the span of the previous run fired. -/
def Sets (run : ClassRun) (m : Method) (i : Nat) : Prop :=
  ∃ p g s, run.probes = some p ∧ FlowGraph.ofEvents (some p) m.events = .ok g ∧
    g.probeSpan = some s ∧ s.contains i = true ∧
    ∃ snapshot imprint t q, run.previous = some snapshot ∧
      snapshot.method? m.decl.matchKey = some imprint ∧ imprint.probeSpan = some t ∧
      snapshot.probes = some q ∧ q[t.first + (i - s.first)]? = some true

theorem answer_mergePrevious_eq_error_iff {e : Fault} :
    (mergePrevious d g).answer run = .error e ↔ run.verdict d g = .error e := by
  rw [Update.answer, run_mergePrevious_eq]
  cases run.verdict d g <;> simp

/-- Neither the graph nor a captured imprint reaches beyond its array. -/
theorem verdict_ne_outOfBounds (hcaptured : ∀ s ∈ run.previous, s.Captured) {es : List Event}
    (hg : FlowGraph.ofEvents run.probes es = .ok g) (i n : Nat) :
    run.verdict d g ≠ .error (.probeOutOfBounds i n) := by
  intro h
  rw [verdict] at h
  split at h
  · cases h
  next snapshot hprevious =>
    obtain ⟨imprint, himprint, -, -, halign | ⟨spans, hspans, hfired⟩⟩ :=
      MethodRun.verdict_eq_error_iff.mp h
    · rcases ProbeSpan.cases_of_alignSpans_error halign with heq | ⟨_, _, heq⟩
      · cases heq
      · cases heq
    · obtain ⟨s, t, k, q, rfl, hk, hq, hlast⟩ := MethodRun.cases_of_firedBy_error hfired
      obtain ⟨hs, ht⟩ := ProbeSpan.eq_of_alignSpans_some hspans
      obtain ⟨p, hp, rfl⟩ := Option.map_eq_some_iff.mp hk
      have hlts : s.last < p.size :=
        FlowGraph.readable_of_ofEvents hg (uses_last_probeSpan hg hs) p hp
      have hltt : t.last < q.size :=
        (hcaptured snapshot hprevious).recorded.last_lt_size himprint ht hq
      omega

/-- Also a method whose counters overflow leaves the length of the array as it is. -/
theorem final_analyze_frame (m : Method) (run : ClassRun) :
    ((analyze m).final run).previous = run.previous ∧
      ((analyze m).final run).probes.map (·.size) = run.probes.map (·.size) := by
  rw [Update.final, run_analyze_eq]
  cases run.prepare m with
  | error e => exact ⟨rfl, rfl⟩
  | ok p =>
    have hsize : (run.fire p.gain).probes.map (·.size) = run.probes.map (·.size) := by
      simp [fire, Function.comp_def]
    dsimp only
    cases run.addGraph m.decl p.graph with
    | error e => exact ⟨rfl, hsize⟩
    | ok report => exact ⟨rfl, hsize⟩

/-- What a prepared method fires is what its merge sets. -/
theorem fires_fire_iff {p : Prepared} (h : run.prepare m = .ok p) {i : Nat} :
    fires (run.fire p.gain).probes i = true ↔
      fires run.probes i = true ∨ p.outcome = .merged ∧ run.Sets m i := by
  obtain ⟨g, hg, hverdict, -⟩ := prepare_eq_ok_iff.mp h
  refine fires_map_fire.trans (or_congr_right ?_)
  rw [verdict] at hverdict
  split at hverdict
  next hprevious =>
    obtain ⟨-, hgain⟩ := Prod.mk.inj (Except.ok.inj hverdict)
    simp [Sets, hprevious, ← hgain, Gain.nothing]
  next snapshot hprevious =>
    rw [MethodRun.fired_iff hverdict]
    constructor
    · rintro ⟨-, hmerged, hsome, imprint, s, t, q, himprint, hs, ht, hq, hi, hfired⟩
      obtain ⟨w, hw⟩ := Option.isSome_iff_exists.mp hsome
      exact ⟨hmerged, w, g, s, hw, hw ▸ hg, hs, hi, snapshot, imprint, t, q, hprevious, himprint,
        ht, hq, hfired⟩
    · rintro ⟨hmerged, w, g', s, hw, hg', hs, hi, snapshot', imprint, t, q, hprevious', himprint,
        ht, hq, hfired⟩
      rw [hw, hg'] at hg
      cases hg
      rw [hprevious] at hprevious'
      cases hprevious'
      have hlast : s.last < w.size := last_lt_size hg' hs
      have hin : s.first ≤ i ∧ i ≤ s.last := by simpa [ProbeSpan.contains] using hi
      refine ⟨⟨w, hw, by omega⟩, hmerged, ?_, imprint, s, t, q, himprint, hs, ht, hq, hi, hfired⟩
      exact Option.isSome_iff_exists.mpr ⟨w, hw⟩

end ClassRun

namespace StatefulFilter

variable {σ : Type} {f : StatefulFilter σ} {s : σ} {run : ClassRun} {m : Method} {ms : List Method}

/-! ## One method -/

theorem analyze_frame : (f.analyze s run m).2.2.previous = run.previous ∧
    (f.analyze s run m).2.2.probes.map (·.size) = run.probes.map (·.size) :=
  ClassRun.final_analyze_frame m { run with filter := f.current s }

/-- A method that is not rejected was prepared; it fires its probes, and its report is added. -/
theorem analyze_of_ok {outcome : MergeOutcome} (h : (f.analyze s run m).1 = .ok outcome) :
    ∃ p report, run.prepare m = .ok p ∧ outcome = p.outcome ∧
      (f.analyze s run m).2.2 = { run.fire p.gain with report } := by
  obtain ⟨run', hrun'⟩ := Update.exists_run_of_answer h
  obtain ⟨p, report, hp, -, houtcome, rfl⟩ := ClassRun.analyze_eq_ok_iff.mp hrun'
  refine ⟨p, report, hp, houtcome, ?_⟩
  simp only [analyze, Update.final, hrun']
  rfl

/-- One method sets what its merge sets, if that takes place. -/
theorem fires_analyze_iff (hpanic : (f.analyze s run m).1 ≠ .error .overflow) (i : Nat) :
    fires (f.analyze s run m).2.2.probes i = true ↔
      fires run.probes i = true ∨ (f.analyze s run m).1 = .ok .merged ∧ run.Sets m i := by
  cases hanswer : (f.analyze s run m).1 with
  | error e =>
    have hsame := analyze_of_error hanswer fun he ↦ hpanic (he ▸ hanswer)
    simp [hsame]
  | ok outcome =>
    obtain ⟨p, report, hp, rfl, hrun⟩ := analyze_of_ok hanswer
    rw [hrun, Except.ok.injEq]
    exact ClassRun.fires_fire_iff hp

theorem answer_outOfBounds_iff (hcaptured : ∀ s ∈ run.previous, s.Captured) {i n : Nat} :
    (f.analyze s run m).1 = .error (.probeOutOfBounds i n) ↔
      FlowGraph.ofEvents run.probes m.events = .error (.probeOutOfBounds i n) := by
  constructor
  · intro h
    obtain ⟨hprepare, -⟩ := ClassRun.final_analyze_of_error h nofun
    have hprepare : run.prepare m = .error (.probeOutOfBounds i n) := hprepare
    rw [ClassRun.prepare, bind_eq_error_iff] at hprepare
    rcases hprepare with hg | ⟨g, hg, hverdict⟩
    · exact hg
    · rcases bind_eq_error_iff.mp hverdict with hverdict | ⟨v, -, hv⟩
      · exact absurd hverdict (ClassRun.verdict_ne_outOfBounds hcaptured hg i n)
      · cases hv
  · intro h
    change (ClassRun.analyze m).answer { run with filter := f.current s } = _
    have hrun : (ClassRun.analyze m).run { run with filter := f.current s } =
        .error (.probeOutOfBounds i n) { run with filter := f.current s } :=
      ClassRun.run_analyze_of_error h
    rw [Update.answer, hrun]

/-! ## All methods -/

/-- The class when the method at the place `k` is submitted. -/
def reached (f : StatefulFilter σ) (s : σ) (run : ClassRun) (ms : List Method) (k : Nat) :
    ClassRun := (f.submit s run (ms.take k)).2.2

theorem reached_succ {answer : Except Fault MergeOutcome} {s' : σ} {run' : ClassRun}
    (h : f.analyze s run m = (answer, s', run')) (k : Nat) :
    f.reached s run (m :: ms) (k + 1) = f.reached s' run' ms k := by
  rw [reached, List.take_succ_cons, submit_cons h, reached]

theorem submit_frame : (f.submit s run ms).2.2.previous = run.previous ∧
    (f.submit s run ms).2.2.probes.map (·.size) = run.probes.map (·.size) := by
  induction ms generalizing s run with
  | nil => exact ⟨rfl, rfl⟩
  | cons m ms ih =>
    obtain ⟨hprevious, hsize⟩ := @analyze_frame σ f s run m
    rw [submit_cons rfl]
    exact ⟨ih.1.trans hprevious, ih.2.trans hsize⟩

/-- Every method is answered in the class that it is submitted to. -/
theorem exists_answer {k : Nat} (hm : ms[k]? = some m) :
    ∃ s', (f.submit s run ms).1[k]? = some (f.analyze s' (f.reached s run ms k) m).1 := by
  induction ms generalizing s run k with
  | nil => cases hm
  | cons n ms ih =>
    rw [submit_cons rfl]
    cases k with
    | zero =>
      cases hm
      exact ⟨s, rfl⟩
    | succ k =>
      rw [reached_succ rfl]
      exact ih hm

/-- An entry is set at the end if it was at the start, or if the merge of some method set it. -/
theorem fires_submit_iff (hpanic : .error .overflow ∉ (f.submit s run ms).1) (i : Nat) :
    fires (f.submit s run ms).2.2.probes i = true ↔ fires run.probes i = true ∨
      ∃ k m, ms[k]? = some m ∧ (f.submit s run ms).1[k]? = some (.ok .merged) ∧
        (f.reached s run ms k).Sets m i := by
  induction ms generalizing s run with
  | nil => simp [submit]
  | cons m ms ih =>
    obtain ⟨answer, s', run', hm⟩ : ∃ a s' run', f.analyze s run m = (a, s', run') :=
      ⟨_, _, _, rfl⟩
    rw [submit_cons hm, List.mem_cons, not_or] at hpanic
    have hstep := @fires_analyze_iff σ f s run m
    rw [hm] at hstep
    rw [submit_cons hm, ih hpanic.2, hstep (Ne.symm hpanic.1), or_assoc]
    -- the merge of the first method, or of one after it
    refine or_congr_right ⟨?_, ?_⟩
    · rintro (⟨rfl, hsets⟩ | ⟨k, n, hn, hanswer, hsets⟩)
      · exact ⟨0, m, rfl, rfl, hsets⟩
      · exact ⟨k + 1, n, hn, hanswer, (reached_succ hm k).symm ▸ hsets⟩
    · rintro ⟨k, n, hn, hanswer, hsets⟩
      cases k with
      | zero =>
        cases hn
        cases hanswer
        exact Or.inl ⟨rfl, hsets⟩
      | succ k =>
        rw [reached_succ hm] at hsets
        exact Or.inr ⟨k, n, hn, hanswer, hsets⟩

/-- What a list of methods does to the array that they share. -/
structure WorkingArray (f : StatefulFilter σ) (s : σ) (run : ClassRun) (ms : List Method) :
    Prop where
  /-- The array keeps its length; where there is none, there is none at the end. -/
  size : (f.submit s run ms).2.2.probes.map (·.size) = run.probes.map (·.size)
  /-- An entry is set at the end if it was at the start, or if a merge that took place set it. -/
  fires : ∀ i, ProbeCoverage.fires (f.submit s run ms).2.2.probes i = true ↔
    ProbeCoverage.fires run.probes i = true ∨
      ∃ k m, ms[k]? = some m ∧ (f.submit s run ms).1[k]? = some (.ok .merged) ∧
        (f.reached s run ms k).Sets m i
  /-- No merge reaches beyond an array. -/
  merge : ∀ k m g, ms[k]? = some m →
    FlowGraph.ofEvents (f.reached s run ms k).probes m.events = .ok g → ∀ i n,
      (ClassRun.mergePrevious m.decl g).answer (f.reached s run ms k) ≠
        .error (.probeOutOfBounds i n)
  /-- A method is rejected for a probe beyond the array only while its events are recorded. -/
  rejected : ∀ k m i n, ms[k]? = some m →
    ((f.submit s run ms).1[k]? = some (.error (.probeOutOfBounds i n)) ↔
      FlowGraph.ofEvents (f.reached s run ms k).probes m.events = .error (.probeOutOfBounds i n))

theorem workingArray_submit (f : StatefulFilter σ) (s : σ) (run : ClassRun) (ms : List Method)
    (hcaptured : ∀ snapshot ∈ run.previous, snapshot.Captured)
    (hpanic : .error .overflow ∉ (f.submit s run ms).1) : f.WorkingArray s run ms := by
  have hreached : ∀ k, ∀ snapshot ∈ (f.reached s run ms k).previous, snapshot.Captured := by
    intro k
    rwa [reached, submit_frame.1]
  refine ⟨submit_frame.2, fires_submit_iff hpanic, fun k m g _ hg i n ↦ ?_, fun k m i n hm ↦ ?_⟩
  · rw [Ne, ClassRun.answer_mergePrevious_eq_error_iff]
    exact ClassRun.verdict_ne_outOfBounds (hreached k) hg i n
  · obtain ⟨s', hs'⟩ := @exists_answer σ f s run m ms k hm
    rw [hs', Option.some.injEq]
    exact answer_outOfBounds_iff (hreached k)

/-- The previous run had the probe of the merged method two places before. -/
theorem workingArray_submit_moved :
    ∃ snapshot, Snapshot.capture [probed "f" 0] (some #[true]) = .ok snapshot ∧
      let run := ClassRun.start { name := "A" } (.chain []) (some snapshot)
        (some #[false, false, false])
      let ms := [probed "h" 7, probed "f" 2, probed "i" 1]
      (skipFirst.submit 0 run ms).1 = [.error (.probeOutOfBounds 7 3), .ok .merged,
        .ok .noPrevious] ∧
      (skipFirst.submit 0 run ms).2.2.probes = some #[false, false, true] ∧
      skipFirst.WorkingArray 0 run ms := by
  obtain ⟨snapshot, hsnapshot⟩ : ∃ snapshot,
      Snapshot.capture [probed "f" 0] (some #[true]) = .ok snapshot :=
    exists_eq_ok (by decide +kernel)
  refine ⟨snapshot, hsnapshot, ?_⟩
  intro run ms
  have hall : ((Snapshot.capture [probed "f" 0] (some #[true])).map fun snapshot ↦
      (skipFirst.submit 0 (ClassRun.start { name := "A" } (.chain []) (some snapshot)
        (some #[false, false, false])) ms).map id (·.2.probes)) =
      .ok ([.error (.probeOutOfBounds 7 3), .ok .merged, .ok .noPrevious],
        some #[false, false, true]) := by decide +kernel
  rw [hsnapshot] at hall
  have hrest : (skipFirst.submit 0 run ms).map id (·.2.probes) =
      ([.error (.probeOutOfBounds 7 3), .ok .merged, .ok .noPrevious],
        some #[false, false, true]) := Except.ok.inj hall
  simp only [Prod.ext_iff, Prod.map_fst, Prod.map_snd, id] at hrest
  obtain ⟨hanswers, hprobes⟩ := hrest
  refine ⟨hanswers, hprobes, workingArray_submit skipFirst 0 run ms ?_ ?_⟩
  · intro s hs
    obtain rfl := Option.some.inj hs
    exact ⟨_, _, hsnapshot⟩
  · rw [hanswers]
    decide

end StatefulFilter

end ProbeCoverage
