import ProbeCoverage.Session
import ProbeCoverage.Proofs.ClassAnalysis
import ProbeCoverage.Proofs.Rerun

/-!
# Merging equals running again

Two runs of the same class, the previous one captured. Analysing the current run gives the report
that a session without merging gives for the united probes. The methods are merged one after the
other and each may fire probes of the array that they share; as their probes lie in intervals apart
from each other, no method sees what another one fired.
-/

namespace ProbeCoverage

/-! ## Two runs of a class -/

/-- The probes of the methods lie in intervals apart from each other. -/
def Method.Apart (m n : Method) : Prop :=
  (∀ i j, Stream.Uses m.events i → Stream.Uses n.events j → i < j) ∨
    ∀ i j, Stream.Uses m.events i → Stream.Uses n.events j → j < i

def Method.HasCounterpart (ms : List Method) (m : Method) : Prop :=
  ∃ n ∈ ms, n.decl.matchKey = m.decl.matchKey

/-- The methods `ms'` of the previous run restate those of `ms` that are matched with them. -/
structure SameCode (ρ : Method → Renaming) (ms ms' : List Method) : Prop where
  apart : ms.Pairwise Method.Apart
  keys : (ms'.map (·.decl.matchKey)).Nodup
  hasCode : ∀ m ∈ ms', m.decl.hasNoCode = false
  signed : ∀ m ∈ ms, m.HasCounterpart ms' → AllSigned (Stream.signatures m.events)
  restates : ∀ m ∈ ms, ∀ m' ∈ ms', m'.decl.matchKey = m.decl.matchKey →
    Restates (ρ m) m.events m'.events

/-- At the probes of each method, `P` unites the array `p` of the current run with the array `q` of
the previous one, where the method has its probes moved. -/
structure Unites (ρ : Method → Renaming) (ms ms' : List Method) (p q P : Array Bool) : Prop where
  size : P.size = p.size
  fired : ∀ m ∈ ms, ∀ i, Stream.Uses m.events i → (P.getD i false = true ↔
    p.getD i false = true ∨ m.HasCounterpart ms' ∧ q.getD ((ρ m).probe i) false = true)

namespace Unites

variable {ρ : Method → Renaming} {ms ms' : List Method} {p q P : Array Bool} {m : Method}

theorem of_counterpart (h : Unites ρ ms ms' p q P) (hm : m ∈ ms) (hcounter : m.HasCounterpart ms')
    (i : Nat) (hi : Stream.Uses m.events i) :
    P.getD i false = (p.getD i false || q.getD ((ρ m).probe i) false) := by
  rw [Bool.eq_iff_iff, Bool.or_eq_true, h.fired m hm i hi]
  exact or_congr Iff.rfl (and_iff_right hcounter)

theorem of_not_counterpart (h : Unites ρ ms ms' p q P) (hm : m ∈ ms)
    (hcounter : ¬ m.HasCounterpart ms') (i : Nat) (hi : Stream.Uses m.events i) :
    P.getD i false = p.getD i false := by
  rw [Bool.eq_iff_iff, h.fired m hm i hi]
  exact or_iff_left fun hand ↦ hcounter hand.1

end Unites

/-- What a snapshot of the previous run knows of the methods. -/
structure Remembers (snapshot : Snapshot) (ms' : List Method) (q : Array Bool) : Prop where
  probes : snapshot.probes = some q
  other : ∀ key, key ∉ ms'.map (·.decl.matchKey) → snapshot.method? key = none
  own : ∀ m ∈ ms', ∃ g, FlowGraph.ofEvents (some q) m.events = .ok g ∧
    ∀ i, g.imprint? = some i → snapshot.method? m.decl.matchKey = some i

theorem remembers_capture {ms' : List Method} {q : Array Bool} {snapshot : Snapshot}
    (h : Snapshot.capture ms' (some q) = .ok snapshot)
    (hcode : ∀ m ∈ ms', m.decl.hasNoCode = false)
    (hkeys : (ms'.map (·.decl.matchKey)).Nodup) : Remembers snapshot ms' q := by
  obtain ⟨hprobes, hother, hown⟩ := Snapshot.of_capture h hcode hkeys
  refine ⟨hprobes, fun key hkey ↦ ?_, hown⟩
  rw [hother key hkey]
  exact Std.ExtTreeMap.getElem?_empty

section Rerun

open ClassRun

variable {ρ : Method → Renaming} {ms ms' : List Method} {p q P w : Array Bool}
  {snapshot : Snapshot}

variable {run : ClassRun} {m : Method} {g : FlowGraph}

/-- A method with a counterpart is merged, and then has the graph that the united probes give. -/
theorem analyze_counterpart (hsnap : Remembers snapshot ms' q) {m' : Method} (hm' : m' ∈ ms')
    (hkey : m'.decl.matchKey = m.decl.matchKey) (hes : Restates (ρ m) m.events m'.events)
    (hsigned : AllSigned (Stream.signatures m.events))
    (hg : FlowGraph.ofEvents (some w) m.events = .ok g) (hword : w.size < probeBound)
    (hsize : P.size = w.size) (hP : ∀ i, Stream.Uses m.events i →
      P.getD i false = (w.getD i false || q.getD ((ρ m).probe i) false))
    (hprevious : run.previous = some snapshot) (hprobes : run.probes = some w) :
    ∃ united w', FlowGraph.ofEvents (some P) m.events = .ok united ∧
      w'.size = w.size ∧ (∀ i, w'.getD i false = true ↔ w.getD i false = true ∨
        Stream.Kept m.events i ∧ q.getD ((ρ m).probe i) false = true) ∧
      (analyze m).run run =
        conclude { run with probes := some w' } .merged (run.addGraph m.decl united) := by
  obtain ⟨g', hg', himprint⟩ := hsnap.own m' hm'
  obtain ⟨i, fired, hi, hprints, hmerge, hfires⟩ :=
    exists_merge hes hg hg' hword hsigned run.decl.name m.decl.matchKey
  have hunited := ofEvents_united hes hg hg' hsigned hprints hsize hP fired
  have hmerged : (MethodRun.merge run.decl.name m.decl.matchKey
      (snapshot.method? m.decl.matchKey) snapshot.probes).run ⟨g, run.probes⟩ =
        .ok .merged ((MethodRun.mk g (some w)).gather ⟨Gain.ofImprint i, fired⟩) := by
    rw [← hkey, himprint i hi, hsnap.probes, hprobes, hkey]
    exact hmerge
  refine ⟨_, Gain.fire ⟨Gain.ofImprint i, fired⟩ w, hunited, Gain.size_fire _ w, fun k ↦ ?_, ?_⟩
  · rw [getD_fire, hfires]
  · exact run_analyze (hprobes ▸ hg) (run_mergePrevious hprevious hmerged)

theorem analyze_alone (hsnap : Remembers snapshot ms' q) (hnone : ¬ m.HasCounterpart ms')
    (hg : FlowGraph.ofEvents (some w) m.events = .ok g)
    (hprevious : run.previous = some snapshot) (hprobes : run.probes = some w) :
    (analyze m).run run = conclude run .noPrevious (run.addGraph m.decl g) := by
  have hkey : m.decl.matchKey ∉ ms'.map (·.decl.matchKey) := by
    intro hmem
    obtain ⟨n, hn, hkey⟩ := List.mem_map.mp hmem
    exact hnone ⟨n, hn, hkey⟩
  have hmerge : (MethodRun.merge run.decl.name m.decl.matchKey
      (snapshot.method? m.decl.matchKey) snapshot.probes).run ⟨g, run.probes⟩ =
        .ok .noPrevious ⟨g, run.probes⟩ := by
    rw [hsnap.other _ hkey]
    rfl
  exact run_analyze (hprobes ▸ hg) (run_mergePrevious hprevious hmerge)

/-- The analysis `run` that merges, and beside it the one of the united probes. The array of `run`
still is that of the current run at the probes of the methods to come. -/
structure Beside (snapshot : Snapshot) (p P : Array Bool) (ms : List Method)
    (run united : ClassRun) : Prop where
  previous : run.previous = some snapshot
  united_eq : united = { run with previous := none, probes := some P }
  array : ∃ w, run.probes = some w ∧ w.size = p.size ∧
    ∀ m ∈ ms, ∀ i, Stream.Uses m.events i → w.getD i false = p.getD i false

theorem Beside.withReport {united : ClassRun} (h : Beside snapshot p P ms run united)
    (report : ClassReport) :
    Beside snapshot p P ms { run with report } { united with report } where
  previous := h.previous
  united_eq := by rw [h.united_eq]
  array := h.array

theorem not_uses_of_kept {m n : Method} (h : m.Apart n) {i : Nat}
    (hkept : Stream.Kept m.events i) : ¬ Stream.Uses n.events i := by
  intro hi
  obtain ⟨j, ⟨id, hj⟩, k, ⟨id', hk⟩, hji, hik⟩ := hkept
  rcases h with h | h
  · exact absurd hik (Nat.not_le.mpr (h k i (Stream.uses_of_lastProbe? hk) hi))
  · exact absurd hji (Nat.not_le.mpr (h j i (Stream.uses_of_lastProbe? hj) hi))

/-- One method: both analyses add the same to the report, and what was fired is not looked at by
the other methods. -/
theorem beside_analyze (hcode : SameCode ρ (m :: ms) ms') (hsnap : Remembers snapshot ms' q)
    (hunites : Unites ρ (m :: ms) ms' p q P) (hword : p.size < probeBound)
    (hg : FlowGraph.ofEvents (some p) m.events = .ok g) {united : ClassRun}
    (h : Beside snapshot p P (m :: ms) run united) :
    ∃ outcome run' graph, FlowGraph.ofEvents united.probes m.events = .ok graph ∧
      (analyze m).run run = conclude run' outcome (united.addGraph m.decl graph) ∧
      (analyze m).run united = conclude united .noPrevious (united.addGraph m.decl graph) ∧
      (m.HasCounterpart ms' → outcome = .merged) ∧ Beside snapshot p P ms run' united := by
  obtain ⟨hprevious, rfl, w, hprobes, hsize, hagree⟩ := h
  have hagree_m := hagree m List.mem_cons_self
  have hrest : ∀ n ∈ ms, ∀ i, Stream.Uses n.events i → w.getD i false = p.getD i false :=
    fun n hn ↦ hagree n (List.mem_cons_of_mem m hn)
  have hgw := FlowGraph.ofEvents_congr_some hg hsize hagree_m
  by_cases hcounter : m.HasCounterpart ms'
  · have hP : ∀ i, Stream.Uses m.events i →
        P.getD i false = (w.getD i false || q.getD ((ρ m).probe i) false) := fun i hi ↦ by
      rw [hagree_m i hi]
      exact hunites.of_counterpart List.mem_cons_self hcounter i hi
    have hsigned := hcode.signed m List.mem_cons_self hcounter
    obtain ⟨m', hm', hkey⟩ := hcounter
    obtain ⟨graph, w', hgraph, hsize', hkept, hrun⟩ := analyze_counterpart hsnap hm' hkey
      (hcode.restates m List.mem_cons_self m' hm' hkey) hsigned hgw (hsize ▸ hword)
      (hunites.size.trans hsize.symm) hP hprevious hprobes
    refine ⟨.merged, { run with probes := some w' }, graph, hgraph, hrun, ?_, fun _ ↦ rfl,
      hprevious, rfl, w', rfl, hsize'.trans hsize, fun n hn i hi ↦ ?_⟩
    · exact run_analyze hgraph (run_mergePrevious_none rfl m.decl graph)
    · rw [← hrest n hn i hi]
      have hnot : ¬ Stream.Kept m.events i := fun hm ↦
        not_uses_of_kept ((List.pairwise_cons.mp hcode.apart).1 n hn) hm hi
      rw [Bool.eq_iff_iff, hkept]
      exact or_iff_left fun hand ↦ hnot hand.1
  · have hgraph : FlowGraph.ofEvents (some P) m.events = .ok g :=
      FlowGraph.ofEvents_congr_some hg hunites.size
        (hunites.of_not_counterpart List.mem_cons_self hcounter)
    refine ⟨.noPrevious, run, g, hgraph, analyze_alone hsnap hcounter hgw hprevious hprobes, ?_,
      fun hc ↦ absurd hc hcounter, hprevious, rfl, w, hprobes, hsize, hrest⟩
    exact run_analyze hgraph (run_mergePrevious_none rfl m.decl g)

theorem SameCode.tail (h : SameCode ρ (m :: ms) ms') : SameCode ρ ms ms' where
  apart := (List.pairwise_cons.mp h.apart).2
  keys := h.keys
  hasCode := h.hasCode
  signed n hn := h.signed n (List.mem_cons_of_mem m hn)
  restates n hn := h.restates n (List.mem_cons_of_mem m hn)

theorem Unites.tail (h : Unites ρ (m :: ms) ms' p q P) : Unites ρ ms ms' p q P where
  size := h.size
  fired n hn := h.fired n (List.mem_cons_of_mem m hn)

/-- All methods: both analyses come to the same report, or to the same overflow. -/
theorem beside_mapM (hcode : SameCode ρ ms ms') (hsnap : Remembers snapshot ms' q)
    (hunites : Unites ρ ms ms' p q P) (hword : p.size < probeBound)
    (hg : ∀ m ∈ ms, ∃ g, FlowGraph.ofEvents (some p) m.events = .ok g) {united : ClassRun}
    (h : Beside snapshot p P ms run united) {n : Nat} (hcount : united.report.Within n) :
    (∃ outcomes outcomes' run' united', (ms.mapM analyze).run run = .ok outcomes run' ∧
        (ms.mapM analyze).run united = .ok outcomes' united' ∧ run'.report = united'.report ∧
        List.Forall₂ (fun m o ↦ m.HasCounterpart ms' → o = .merged) ms outcomes) ∨
      (∃ run' united', (ms.mapM analyze).run run = .error .overflow run' ∧
        (ms.mapM analyze).run united = .error .overflow united') ∧
        countBound ≤ n + (ms.map united.items).sum := by
  induction ms generalizing run united n with
  | nil =>
    left
    obtain ⟨-, rfl, -⟩ := h
    exact ⟨[], [], _, _, rfl, rfl, rfl, .nil⟩
  | cons m ms ih =>
    obtain ⟨g, hgm⟩ := hg m List.mem_cons_self
    obtain ⟨outcome, run₁, graph, hgraph, hrun, hunited, houtcome, hnext⟩ :=
      beside_analyze hcode hsnap hunites hword hgm h
    have hresult := counts_addGraph hgraph hcount
    simp only [List.mapM_cons, EStateM.run_bind, hrun, hunited, List.map_cons, List.sum_cons]
    cases hadd : united.addGraph m.decl graph with
    | error e =>
      rw [hadd] at hresult
      obtain ⟨rfl, hle⟩ := hresult
      right
      refine ⟨⟨run₁, united, rfl, rfl⟩, Nat.le_trans hle ?_⟩
      omega
    | ok report =>
      rw [hadd] at hresult
      simp only [conclude]
      rcases ih hcode.tail hunites.tail (fun n hn ↦ hg n (List.mem_cons_of_mem m hn))
        (hnext.withReport report) hresult with
        ⟨outcomes, outcomes', run', united', hr, hu, hreport, hall⟩ |
          ⟨⟨run', united', hr, hu⟩, hle⟩
      · left
        simp only [hr, hu]
        exact ⟨outcome :: outcomes, .noPrevious :: outcomes', run', united', rfl, rfl, hreport,
          .cons houtcome hall⟩
      · right
        simp only [hr, hu]
        refine ⟨⟨run', united', rfl, rfl⟩, Nat.le_trans hle (Nat.le_of_eq ?_)⟩
        exact Nat.add_assoc _ _ _

end Rerun

/-! ## Sessions -/

namespace Session

def unmerged (s : Session) : Session := { s with settings := s.settings.setMerge false }

/-- The items of all methods that are left to be counted, without a previous run. -/
def items (s : Session) (input : ExecutedClass) : Nat :=
  (input.methods.map (ClassRun.start input.decl s.filter none input.probes).items).sum

theorem analyze_eq (s : Session) (input : ExecutedClass) :
    s.analyze input = match (input.methods.mapM ClassRun.analyze).run
        (ClassRun.start input.decl s.filter (s.previous? input.decl.name) input.probes) with
      | .ok _ run => .ok run.finish
      | .error e _ => .error e := by
  rw [analyze]
  simp only [Update.run_forM_discard]
  cases (input.methods.mapM ClassRun.analyze).run
    (ClassRun.start input.decl s.filter (s.previous? input.decl.name) input.probes) <;> rfl

theorem capture_eq_ok_iff {s s' : Session} {input : ExecutedClass} :
    (capture input).run s = .ok () s' ↔
      ∃ snapshot, Snapshot.capture input.methods input.probes = .ok snapshot ∧
        s' = { s with snapshots := s.snapshots.insert input.decl.name snapshot } := by
  unfold capture
  rw [EStateM.run_bind]
  cases Snapshot.capture input.methods input.probes with
  | error e => simp
  | ok snapshot => simp [eq_comm]

/-- Merging with a captured run of the same code gives the report of the united probes, and all
methods with a counterpart are merged. Both analyses overflow instead if there are more items than a
count can hold. -/
theorem analyze_capture_eq {s s' : Session} {ρ : Method → Renaming} {decl decl' : ClassDecl}
    {ms ms' : List Method} {p q P : Array Bool} (hcode : SameCode ρ ms ms')
    (hunites : Unites ρ ms ms' p q P) (hword : p.size < probeBound)
    (hmerge : s.settings.merge = true) (hname : decl'.name = decl.name)
    (hcapture : (capture ⟨decl', ms', some q⟩).run s = .ok () s')
    (hplain : ∃ a, s.unmerged.analyze ⟨decl, ms, some p⟩ = .ok a) :
    (∃ merged united, s'.analyze ⟨decl, ms, some p⟩ = .ok merged ∧
        s.unmerged.analyze ⟨decl, ms, some P⟩ = .ok united ∧ merged.report = united.report ∧
        ∃ outcomes run, (ms.mapM ClassRun.analyze).run (ClassRun.start decl s'.filter
            (s'.previous? decl.name) (some p)) = .ok outcomes run ∧ run.finish = merged ∧
          List.Forall₂ (fun m o ↦ m.HasCounterpart ms' → o = .merged) ms outcomes) ∨
      (s'.analyze ⟨decl, ms, some p⟩ = .error .overflow ∧
        s.unmerged.analyze ⟨decl, ms, some P⟩ = .error .overflow) ∧
        countBound ≤ s.items ⟨decl, ms, some P⟩ := by
  obtain ⟨snapshot, hsnapshot, rfl⟩ := capture_eq_ok_iff.mp hcapture
  have hsnap := remembers_capture hsnapshot hcode.hasCode hcode.keys
  have hprevious : previous? { s with snapshots := s.snapshots.insert decl'.name snapshot }
      decl.name = some snapshot := by
    simp [previous?, hmerge, hname]
  have hnone : s.unmerged.previous? decl.name = none := rfl
  have hg : ∀ m ∈ ms, ∃ g, FlowGraph.ofEvents (some p) m.events = .ok g := by
    obtain ⟨a, ha⟩ := hplain
    rw [analyze_eq, hnone] at ha
    cases hrun : (ms.mapM ClassRun.analyze).run
        (ClassRun.start decl s.unmerged.filter none (some p)) with
    | error e r =>
      rw [hrun] at ha
      cases ha
    | ok outcomes r => exact ClassRun.exists_ofEvents_of_mapM hrun rfl
  have hstart : Beside snapshot p P ms (ClassRun.start decl s.filter (some snapshot) (some p))
      (ClassRun.start decl s.filter none (some P)) :=
    ⟨rfl, rfl, p, rfl, rfl, fun _ _ _ _ ↦ rfl⟩
  have hfilter : s.unmerged.filter = s.filter := rfl
  simp only [analyze_eq, hprevious, hnone, hfilter]
  rcases beside_mapM hcode hsnap hunites hword hg hstart (ClassReport.within_ofClass decl 0) with
    ⟨outcomes, outcomes', run, united, hr, hu, hreport, hall⟩ | ⟨⟨run, united, hr, hu⟩, hle⟩
  · left
    rw [hr, hu]
    exact ⟨run.finish, united.finish, rfl, rfl, hreport, outcomes, run, rfl, rfl, hall⟩
  · right
    rw [hr, hu]
    rw [Nat.zero_add] at hle
    exact ⟨⟨rfl, rfl⟩, hle⟩

/-- A method that returns or throws; its names and probes start at `n`. -/
def choice (line n : Nat) : Method where
  decl := { access := ⟨1⟩, name := "f", desc := "()V" }
  events := [.line line, .instruction ⟨n⟩ (some "if"), .jump ⟨n⟩ 1,
    .instruction ⟨n + 1⟩ (some "return"), .probe n 0, .label ⟨n⟩ false,
    .instruction ⟨n + 2⟩ (some "throw"), .probe (n + 1) 0, .endMethod]

def added : Method where
  decl := { access := ⟨1⟩, name := "g", desc := "()V" }
  events := [.instruction ⟨0⟩ none, .probe 2 0, .endMethod]

def moved : Renaming where
  handle h := ⟨h.num + 1⟩
  label l := ⟨l.num + 1⟩
  shift := 1
  handle_injective := by
    rintro ⟨a⟩ ⟨b⟩ h
    simpa using h
  label_injective := by
    rintro ⟨a⟩ ⟨b⟩ h
    simpa using h

theorem sameCode_choice : SameCode (fun _ ↦ moved) [choice 3 0, added] [choice 7 1] where
  apart := by
    rw [List.pairwise_pair]
    left
    rintro i j ⟨b, hb⟩ ⟨c, hc⟩
    simp [choice, added] at hb hc
    omega
  keys := by decide
  hasCode := by decide
  signed := by
    intro m hm hcounter
    simp only [List.mem_cons, List.not_mem_nil, or_false] at hm
    rcases hm with rfl | rfl
    · exact ⟨by decide, by decide⟩
    · obtain ⟨n, hn, hkey⟩ := hcounter
      rw [List.mem_singleton.mp hn] at hkey
      exact absurd hkey (by decide)
  restates := by
    intro m hm m' hm' hkey
    simp only [List.mem_cons, List.not_mem_nil, or_false] at hm hm'
    subst hm'
    rcases hm with rfl | rfl
    · apply Restates.line 3 (.lineAgain 7 (.cons (.instruction _ _) (.cons (.jump _ _) _)))
      apply Restates.cons (.instruction _ _) (.cons (.probe _ (by decide)) _)
      apply Restates.cons (.label _ _) (.cons (.instruction _ _) _)
      exact .cons (.probe _ (by decide)) (.cons .endMethod .nil)
    · exact absurd hkey (by decide)

theorem unites_choice : Unites (fun _ ↦ moved) [choice 3 0, added] [choice 7 1]
    #[true, false, false] #[false, false, true] #[true, true, false] where
  size := rfl
  fired := by
    rintro m hm i ⟨b, hb⟩
    have hchoice : (choice 3 0).HasCounterpart [choice 7 1] :=
      ⟨choice 7 1, List.mem_singleton_self _, rfl⟩
    have hadded : ¬ added.HasCounterpart [choice 7 1] := by
      rintro ⟨n, hn, hkey⟩
      rw [List.mem_singleton.mp hn] at hkey
      exact absurd hkey (by decide)
    simp only [List.mem_cons, List.not_mem_nil, or_false] at hm
    rcases hm with rfl | rfl
    · simp [choice] at hb
      simp only [hchoice, true_and]
      rcases hb with ⟨rfl, -⟩ | ⟨rfl, -⟩ <;> decide
    · simp [added] at hb
      simp [hadded, hb.1]

theorem analyze_capture_eq_choice :
    ∃ s' merged united,
      (capture ⟨{ name := "A" }, [choice 7 1], some #[false, false, true]⟩).run (ofSettings {}) =
        .ok () s' ∧
      s'.analyze ⟨{ name := "A" }, [choice 3 0, added], some #[true, false, false]⟩ =
        .ok merged ∧
      (ofSettings {}).unmerged.analyze
        ⟨{ name := "A" }, [choice 3 0, added], some #[true, true, false]⟩ = .ok united ∧
      merged.report = united.report := by
  have hitems : (ofSettings {}).items
      ⟨{ name := "A" }, [choice 3 0, added], some #[true, true, false]⟩ = 8 := by decide +kernel
  have hsnapshot : ∃ snapshot, Snapshot.capture [choice 7 1] (some #[false, false, true]) =
      .ok snapshot := exists_eq_ok (by decide +kernel)
  have hplain : ∃ a, (ofSettings {}).unmerged.analyze
      ⟨{ name := "A" }, [choice 3 0, added], some #[true, false, false]⟩ = .ok a :=
    exists_eq_ok (by decide +kernel)
  obtain ⟨snapshot, hsnapshot⟩ := hsnapshot
  have hcapture : (capture ⟨{ name := "A" }, [choice 7 1], some #[false, false, true]⟩).run
      (ofSettings {}) = .ok () { ofSettings {} with
        snapshots := (ofSettings {}).snapshots.insert "A" snapshot } :=
    capture_eq_ok_iff.mpr ⟨snapshot, hsnapshot, rfl⟩
  rcases analyze_capture_eq sameCode_choice unites_choice (by decide) rfl rfl hcapture hplain with
    ⟨merged, united, hmerged, hunited, hreport, -⟩ | ⟨-, hle⟩
  · exact ⟨_, merged, united, hcapture, hmerged, hunited, hreport⟩
  · rw [hitems] at hle
    exact absurd hle (by decide)

end Session

end ProbeCoverage
