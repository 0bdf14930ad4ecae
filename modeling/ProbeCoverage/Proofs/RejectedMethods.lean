import ProbeCoverage.Proofs.MethodAnalysis

/-!
# Rejected methods leave no trace

A merge that does not take place changes neither the graph nor the probe array. A method whose
analysis fails is rejected before anything of it is fired or counted, and before the filter is shown
its graph. So a class with rejected methods is analysed as if these had not been there, also by a
filter that remembers what it was shown.
-/

namespace ProbeCoverage

namespace MethodRun

variable {className method : String} {previous : Option Imprint}
  {previousProbes : Option (Array Bool)} {run : MethodRun} {outcome : MergeOutcome} {gain : Gain}

theorem gain_eq_nothing (h : verdict className method previous previousProbes run =
    .ok (outcome, gain)) (hmerged : outcome ≠ .merged) : gain = .nothing := by
  rcases verdict_cases h with ⟨-, hgain⟩ | ⟨_, _, _, -, -, -, -, -, houtcome, -⟩
  · exact hgain
  · exact absurd houtcome hmerged

theorem final_merge_eq_self
    (h : (merge className method previous previousProbes).answer run ≠ .ok .merged) :
    (merge className method previous previousProbes).final run = run := by
  rw [Update.answer, run_merge] at h
  rw [Update.final, run_merge]
  cases hverdict : verdict className method previous previousProbes run with
  | error e => rfl
  | ok v =>
    rw [hverdict] at h
    have hgain : v.2 = .nothing := gain_eq_nothing hverdict fun ho ↦ h (congrArg Except.ok ho)
    change run.gather v.2 = run
    rw [hgain, gather_nothing]

end MethodRun

theorem ClassRun.final_analyze_of_error {m : Method} {run : ClassRun} {e : Fault}
    (h : (analyze m).answer run = .error e) (hpanic : e ≠ .overflow) :
    run.prepare m = .error e ∧ (analyze m).final run = run := by
  rw [Update.answer, run_analyze_eq] at h
  rw [Update.final, run_analyze_eq]
  cases hprepare : run.prepare m with
  | error f =>
    rw [hprepare] at h
    cases h
    exact ⟨rfl, rfl⟩
  | ok p =>
    rw [hprepare] at h
    cases hadd : run.addGraph m.decl p.graph with
    | ok report =>
      simp only [hadd, conclude] at h
      cases h
    | error f =>
      simp only [hadd, conclude] at h
      cases h
      exact absurd (eq_overflow_of_addGraph hadd) hpanic

/-- A filter with a state of its own, which changes with every method that it is shown. -/
structure StatefulFilter (σ : Type) where
  current : σ → Filter
  next : σ → MethodDecl → FlowGraph → ClassDecl → σ

namespace StatefulFilter

variable {σ : Type}

/-- The analysis of one method: its answer, and the states of the filter and of the class after
it. -/
def analyze (f : StatefulFilter σ) (s : σ) (run : ClassRun) (m : Method) :
    Except Fault MergeOutcome × σ × ClassRun :=
  let current := { run with filter := f.current s }
  let shown := match run.prepare m with
    | .ok p => f.next s m.decl p.graph run.decl
    | .error _ => s
  ((ClassRun.analyze m).answer current, shown,
    { (ClassRun.analyze m).final current with filter := run.filter })

/-- Analyses one method after the other, whatever each of them answers. -/
def submit (f : StatefulFilter σ) (s : σ) (run : ClassRun) :
    List Method → List (Except Fault MergeOutcome) × σ × ClassRun
  | [] => ([], s, run)
  | m :: ms =>
    let (answer, s', run') := f.analyze s run m
    let rest := f.submit s' run' ms
    (answer :: rest.1, rest.2)

/-- The methods that were not rejected. -/
def accepted (ms : List Method) (answers : List (Except Fault MergeOutcome)) : List Method :=
  ((ms.zip answers).filter (·.2.isOk)).map (·.1)

theorem analyze_of_error {f : StatefulFilter σ} {s : σ} {run : ClassRun} {m : Method} {e : Fault}
    (h : (f.analyze s run m).1 = .error e) (hpanic : e ≠ .overflow) :
    (f.analyze s run m).2 = (s, run) := by
  obtain ⟨hprepare, hfinal⟩ := ClassRun.final_analyze_of_error h hpanic
  have hshown : run.prepare m = .error e := hprepare
  simp only [analyze, hfinal, hshown]

theorem submit_cons {f : StatefulFilter σ} {s s' : σ} {run run' : ClassRun} {m : Method}
    {answer : Except Fault MergeOutcome} (h : f.analyze s run m = (answer, s', run'))
    (ms : List Method) : f.submit s run (m :: ms) =
      (answer :: (f.submit s' run' ms).1, (f.submit s' run' ms).2) := by
  rw [submit, h]

theorem accepted_cons_ok (m : Method) (ms : List Method) (outcome : MergeOutcome)
    (answers : List (Except Fault MergeOutcome)) :
    accepted (m :: ms) (.ok outcome :: answers) = m :: accepted ms answers := rfl

theorem accepted_cons_error (m : Method) (ms : List Method) (e : Fault)
    (answers : List (Except Fault MergeOutcome)) :
    accepted (m :: ms) (.error e :: answers) = accepted ms answers := rfl

/-- What does not merge is left as it was, and a class is analysed as if the rejected methods had
not been submitted. -/
theorem submit_accepted :
    (∀ (className method : String) (previous : Option Imprint)
      (previousProbes : Option (Array Bool)) (run : MethodRun),
      (MethodRun.merge className method previous previousProbes).answer run ≠ .ok .merged →
        (MethodRun.merge className method previous previousProbes).final run = run) ∧
    ∀ {σ : Type} (f : StatefulFilter σ) (s : σ) (run : ClassRun) (ms : List Method),
      .error .overflow ∉ (f.submit s run ms).1 →
        f.submit s run (accepted ms (f.submit s run ms).1) =
          ((f.submit s run ms).1.filter (·.isOk), (f.submit s run ms).2) := by
  refine ⟨fun _ _ _ _ _ ↦ MethodRun.final_merge_eq_self, fun f s run ms hpanic ↦ ?_⟩
  induction ms generalizing s run with
  | nil => rfl
  | cons m ms ih =>
    obtain ⟨answer, s', run', hm⟩ : ∃ a s' run', f.analyze s run m = (a, s', run') :=
      ⟨_, _, _, rfl⟩
    rw [submit_cons hm] at hpanic ⊢
    obtain ⟨hanswer, hms⟩ := not_or.mp (List.mem_cons.not.mp hpanic)
    have hrest := ih s' run' hms
    cases answer with
    | ok outcome =>
      rw [accepted_cons_ok, submit_cons hm, hrest]
      rfl
    | error e =>
      -- both states are as if `m` had not been there
      have hleft := analyze_of_error (congrArg Prod.fst hm) fun he ↦ hanswer (he ▸ rfl)
      rw [hm] at hleft
      obtain ⟨rfl, rfl⟩ := Prod.mk.inj hleft
      rw [accepted_cons_error, hrest]
      rfl

/-- Lets go through all methods but the first that it is shown. -/
def skipFirst : StatefulFilter Nat where
  current n := { name := "skipFirst", decisions _ g _ := if n = 0 then Filter.ignoreAll g else [] }
  next n _ _ _ := n + 1

/-- A method of two instructions, the second of which has a probe. -/
def probed (name : String) (probe : Nat) : Method where
  decl := { access := ⟨1⟩, name, desc := "()V" }
  events := [.instruction ⟨0⟩ (some "load"), .instruction ⟨1⟩ (some "return"), .probe probe 0,
    .endMethod]

/-- As `probed`, with a probe on the first instruction, too. -/
def probedTwice (name : String) (probe : Nat) : Method where
  decl := { access := ⟨1⟩, name, desc := "()V" }
  events := [.instruction ⟨0⟩ (some "load"), .probe probe 0, .instruction ⟨1⟩ (some "return"),
    .probe (probe + 1) 0, .endMethod]

theorem submit_accepted_skipFirst :
    ∃ snapshot, Snapshot.capture [probed "f" 0, probed "g" 1] (some #[true, true]) = .ok snapshot ∧
      let run := ClassRun.start { name := "A" } (.chain []) (some snapshot)
        (some #[false, false, false])
      let ms := [probed "f" 0, probed "h" 7, probedTwice "g" 1, probed "i" 1]
      (skipFirst.submit 0 run ms).1 = [.ok .merged, .error (.probeOutOfBounds 7 3),
        .error (.probeSpanMismatch "A" "1g()Vnull" 2 1), .ok .noPrevious] ∧
      skipFirst.submit 0 run [probed "f" 0, probed "i" 1] =
        ([.ok .merged, .ok .noPrevious], (skipFirst.submit 0 run ms).2) ∧
      (MethodRun.merge "A" "m" none none).final ⟨{}, none⟩ = ⟨{}, none⟩ := by
  obtain ⟨snapshot, hsnapshot⟩ : ∃ snapshot,
      Snapshot.capture [probed "f" 0, probed "g" 1] (some #[true, true]) = .ok snapshot :=
    exists_eq_ok (by decide +kernel)
  refine ⟨snapshot, hsnapshot, ?_⟩
  intro run ms
  have hanswers : (skipFirst.submit 0 run ms).1 = [.ok .merged, .error (.probeOutOfBounds 7 3),
      .error (.probeSpanMismatch "A" "1g()Vnull" 2 1), .ok .noPrevious] := by
    have hall : ((Snapshot.capture [probed "f" 0, probed "g" 1] (some #[true, true])).map
        fun snapshot ↦ (skipFirst.submit 0 (ClassRun.start { name := "A" } (.chain [])
          (some snapshot) (some #[false, false, false])) ms).1) =
        .ok [.ok .merged, .error (.probeOutOfBounds 7 3),
          .error (.probeSpanMismatch "A" "1g()Vnull" 2 1), .ok .noPrevious] := by decide +kernel
    rw [hsnapshot] at hall
    exact Except.ok.inj hall
  have hrest := submit_accepted.2 skipFirst 0 run ms (by rw [hanswers]; decide)
  rw [hanswers] at hrest
  exact ⟨hanswers, hrest, submit_accepted.1 "A" "m" none none ⟨{}, none⟩ (by decide)⟩

end StatefulFilter

end ProbeCoverage
