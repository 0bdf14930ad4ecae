import Mathlib.Data.List.Nodup
import ProbeCoverage.Proofs.SessionRerun

/-!
# Merging absorbs its inputs

A class is analysed while a session merges it with a captured run of the same methods. The array
that comes out unites both runs at all probes of the class, even if the probes of its methods lie
between each other, so that a method sees what was fired for those before it. Merging the array once
more, with itself or with either of the runs, therefore changes nothing.
-/

namespace ProbeCoverage

/-- All methods of a class can be matched with those of another run, and no instruction has two
probes. -/
structure Mergeable (ms : List Method) : Prop where
  keys : (ms.map (·.decl.matchKey)).Nodup
  hasCode : ∀ m ∈ ms, m.decl.hasNoCode = false
  signed : ∀ m ∈ ms, AllSigned (Stream.signatures m.events)
  probed : ∀ m ∈ ms, ((Stream.probes m.events).map (·.1.node)).Nodup

/-! ## Probes -/

/-- The only probe of an instruction is the one that it keeps. -/
theorem Stream.lastProbe?_eq_of_nodup {es : List Event} {b : Branch} {i : Nat}
    (hone : ((probes es).map (·.1.node)).Nodup) (h : (b, i) ∈ probes es) :
    lastProbe? es b.node = some i := by
  have hmem : (b, i) ∈ (probes es).filter (·.1.node = b.node) :=
    List.mem_filter.mpr ⟨h, decide_eq_true rfl⟩
  cases hlast : ((probes es).filter (·.1.node = b.node)).getLast? with
  | none =>
    rw [List.getLast?_eq_none_iff.mp hlast] at hmem
    cases hmem
  | some x =>
    obtain ⟨hx, hnode⟩ := List.mem_filter.mp (List.mem_of_getLast? hlast)
    have heq : x = (b, i) := List.inj_on_of_nodup_map hone hx h (of_decide_eq_true hnode)
    rw [lastProbe?, hlast, heq]
    rfl

/-- A probe that is taken belongs to an instruction. -/
theorem Recording.exists_of_uses {probes : Option (Array Bool)} {es : List Event} {i : Nat}
    (h : Admitted { probes } es) (hi : Stream.Uses es i) : ∃ b, (b, i) ∈ Stream.probes es := by
  obtain ⟨branch, hmem⟩ := hi
  induction es using List.reverseRecOn with
  | nil => cases hmem
  | append_singleton es e ih =>
    obtain ⟨hes, -, he⟩ := admitted_append.mp h
    rw [Stream.probes_append]
    rcases List.mem_append.mp hmem with hmem | hmem
    · obtain ⟨b, hb⟩ := ih hes hmem
      exact ⟨b, List.mem_append_left _ hb⟩
    · obtain rfl := List.mem_singleton.mp hmem
      obtain ⟨id, hid, -⟩ := he
      have hcurrent := (reads_ofStream probes es).current.symm.trans hid
      refine ⟨⟨id, branch⟩, List.mem_append_right _ ?_⟩
      simp [Stream.probe?, hcurrent]

theorem Mergeable.kept_of_uses {ms : List Method} (h : Mergeable ms) {m : Method} (hm : m ∈ ms)
    {probes : Option (Array Bool)} {g : FlowGraph}
    (hg : FlowGraph.ofEvents probes m.events = .ok g) {i : Nat}
    (hi : Stream.Uses m.events i) : Stream.Kept m.events i := by
  obtain ⟨b, hb⟩ := Recording.exists_of_uses (FlowGraph.ofEvents_eq_ok hg).1 hi
  have hlast := Stream.lastProbe?_eq_of_nodup (h.probed m hm) hb
  exact ⟨i, ⟨_, hlast⟩, i, ⟨_, hlast⟩, Nat.le_refl i, Nat.le_refl i⟩

/-! ## Merging with the same methods -/

/-- The array unites two runs at the probes of the methods `ns`, all of which are in `ms`. -/
theorem unites_same_iff {ns ms : List Method} (hsub : ∀ m ∈ ns, m ∈ ms) {w v U : Array Bool} :
    Unites (fun _ ↦ .same) ns ms w v U ↔ U.size = w.size ∧
      ∀ m ∈ ns, ∀ i, Stream.Uses m.events i →
        (U.getD i false = true ↔ w.getD i false = true ∨ v.getD i false = true) := by
  have hself : ∀ m ∈ ns, ∀ i, (w.getD i false = true ∨
      m.HasCounterpart ms ∧ v.getD (Renaming.same.probe i) false = true) ↔
        (w.getD i false = true ∨ v.getD i false = true) := fun m hm i ↦ by
    rw [Renaming.probe_same, and_iff_right ⟨m, hsub m hm, rfl⟩]
  constructor
  · rintro ⟨hsize, hfired⟩
    exact ⟨hsize, fun m hm i hi ↦ (hfired m hm i hi).trans (hself m hm i)⟩
  · rintro ⟨hsize, hfired⟩
    exact ⟨hsize, fun m hm i hi ↦ (hfired m hm i hi).trans (hself m hm i).symm⟩

section Run

open ClassRun

variable {ms ns : List Method} {w v U : Array Bool} {snapshot : Snapshot} {run : ClassRun}

/-- The array `w'` has, beyond what fired in `w`, what fired in `v` and lies between kept probes. -/
def Absorbs (ns : List Method) (w v w' : Array Bool) : Prop :=
  w'.size = w.size ∧ ∀ i, w'.getD i false = true ↔
    w.getD i false = true ∨ (∃ m ∈ ns, Stream.Kept m.events i) ∧ v.getD i false = true

/-- The array that unites two runs also unites what comes out of merging them with the other one. -/
theorem Unites.absorb (hsub : ∀ m ∈ ns, m ∈ ms) {w' : Array Bool} {K : Nat → Prop}
    (h : Unites (fun _ ↦ .same) ns ms w v U) (hsize : w'.size = w.size)
    (hfired : ∀ i, w'.getD i false = true ↔
      w.getD i false = true ∨ K i ∧ v.getD i false = true) :
    Unites (fun _ ↦ .same) ns ms w' v U := by
  rw [unites_same_iff hsub] at h ⊢
  refine ⟨h.1.trans hsize.symm, fun m hm i hi ↦ ?_⟩
  rw [h.2 m hm i hi, hfired]
  constructor
  · rintro (hw | hv)
    · exact Or.inl (Or.inl hw)
    · exact Or.inr hv
  · rintro ((hw | ⟨-, hv⟩) | hv)
    · exact Or.inl hw
    · exact Or.inr hv
    · exact Or.inr hv

/-- What was captured has a graph with every array of the same size. -/
theorem Remembers.exists_graph (hsnap : Remembers snapshot ms v) (hsize : v.size = U.size)
    {m : Method} (hm : m ∈ ms) : ∃ g, FlowGraph.ofEvents (some U) m.events = .ok g := by
  obtain ⟨g, hg, -⟩ := hsnap.own m hm
  have hread (i : Nat) (hi : Stream.Uses m.events i) : Readable (some U) i := by
    rw [readable_some, ← hsize]
    exact readable_some.mp (FlowGraph.readable_of_ofEvents hg hi)
  obtain ⟨g', hg', -⟩ := FlowGraph.ofEvents_of_readable hg hread
  exact ⟨g', hg'⟩

/-- Merging method by method comes to the report that the united array gives without merging, or to
the same fault. -/
theorem mapM_analyze_beside (hsnap : Remembers snapshot ms v) (hsub : ∀ m ∈ ns, m ∈ ms)
    (hsigned : ∀ m ∈ ms, AllSigned (Stream.signatures m.events)) (hword : w.size < probeBound)
    (hv : v.size = w.size) (hunites : Unites (fun _ ↦ .same) ns ms w v U)
    (hprevious : run.previous = some snapshot) (hprobes : run.probes = some w) :
    (∃ outcomes outcomes' run' w', (ns.mapM analyze).run run = .ok outcomes run' ∧
        (ns.mapM analyze).run { run with previous := none, probes := some U } =
          .ok outcomes' { run' with previous := none, probes := some U } ∧
        run'.probes = some w' ∧ Absorbs ns w v w') ∨
      ∃ e run' plain, (ns.mapM analyze).run run = .error e run' ∧
        (ns.mapM analyze).run { run with previous := none, probes := some U } = .error e plain := by
  -- The united array stays as it is, while each merge gives the current one some of its probes.
  induction ns generalizing run w with
  | nil => exact Or.inl ⟨[], [], run, w, rfl, rfl, hprobes, rfl, fun i ↦ by simp⟩
  | cons m ns ih =>
    have hm := hsub m List.mem_cons_self
    have hrest : ∀ n ∈ ns, n ∈ ms := fun n hn ↦ hsub n (List.mem_cons_of_mem m hn)
    have hself : m.HasCounterpart ms := ⟨m, hm, rfl⟩
    obtain ⟨g', hg'⟩ := hsnap.exists_graph hv hm
    obtain ⟨graph, w₁, hgraph, hsize₁, hfired₁, hrun⟩ :=
      analyze_counterpart hsnap (ρ := fun _ ↦ .same) hm rfl (Restates.same m.events) (hsigned m hm)
        hg' hword hunites.size (hunites.of_counterpart List.mem_cons_self hself) hprevious hprobes
    simp only [Renaming.probe_same] at hfired₁
    have hplain : (analyze m).run { run with previous := none, probes := some U } =
        conclude { run with previous := none, probes := some U } .noPrevious
          (run.addGraph m.decl graph) :=
      run_analyze hgraph (run_mergePrevious_none rfl m.decl graph)
    simp only [List.mapM_cons, EStateM.run_bind, hrun, hplain]
    cases run.addGraph m.decl graph with
    | error e => exact Or.inr ⟨e, _, _, rfl, rfl⟩
    | ok report =>
      simp only [conclude]
      have hkept : { run with probes := some w₁, report := report }.previous = some snapshot :=
        hprevious
      have hnext := ih hrest (hsize₁.symm ▸ hword) (hv.trans hsize₁.symm)
        (hunites.tail.absorb hrest hsize₁ hfired₁) hkept rfl
      rcases hnext with ⟨os, os', run', w', hr, hp, hw', hsize, hfired⟩ | ⟨e, run', plain, hr, hp⟩
      · left
        simp only [hr, hp]
        refine ⟨_, _, run', w', rfl, rfl, hw', hsize.trans hsize₁, fun i ↦ ?_⟩
        rw [hfired, hfired₁]
        simp only [List.exists_mem_cons_iff]
        tauto
      · right
        simp only [hr, hp]
        exact ⟨e, run', plain, rfl, rfl⟩

end Run

theorem Snapshot.exists_capture {ms : List Method} {s : Snapshot}
    (h : ∀ m ∈ ms, m.decl.hasNoCode = false ∧
      ∃ g, FlowGraph.ofEvents s.probes m.events = .ok g) :
    ∃ s', ms.foldlM captureMethod s = .ok s' := by
  induction ms generalizing s with
  | nil => exact ⟨s, rfl⟩
  | cons m ms ih =>
    obtain ⟨hcode, g, hg⟩ := h m List.mem_cons_self
    have hm := (captureMethod_eq_ok_iff hcode).mpr ⟨g, hg, rfl⟩
    have hprobes := (of_captureMethod hcode hm).1
    rw [List.foldlM_cons, hm]
    exact ih fun n hn ↦ hprobes ▸ h n (List.mem_cons_of_mem m hn)

/-! ## Sessions -/

/-- What fires in the array that a merge leaves, at the probes of the class, fired in either run. -/
theorem Absorbs.unites {ms : List Method} {w v w' : Array Bool} (h : Absorbs ms w v w')
    (hms : Mergeable ms) (hg : ∀ m ∈ ms, ∃ g, FlowGraph.ofEvents (some v) m.events = .ok g) :
    Unites (fun _ ↦ .same) ms ms w v w' := by
  refine (unites_same_iff fun _ hm ↦ hm).mpr ⟨h.1, fun m hm i hi ↦ ?_⟩
  obtain ⟨g, hg⟩ := hg m hm
  have hkept : ∃ m ∈ ms, Stream.Kept m.events i := ⟨m, hm, hms.kept_of_uses hm hg hi⟩
  rw [h.2 i, and_iff_right hkept]

theorem Absorbs.eq_self {ms : List Method} {w v w' : Array Bool} (h : Absorbs ms w v w')
    (hfired : ∀ i, (∃ m ∈ ms, Stream.Kept m.events i) → v.getD i false = true →
      w.getD i false = true) : w' = w := by
  refine Array.ext h.1 fun i hi hi' ↦ ?_
  have hiff : w'.getD i false = true ↔ w.getD i false = true := by
    rw [h.2 i]
    exact or_iff_left_of_imp fun hand ↦ hfired i hand.1 hand.2
  rw [Array.getD_eq_getD_getElem?, Array.getD_eq_getD_getElem?, Array.getElem?_eq_getElem hi,
    Array.getElem?_eq_getElem hi'] at hiff
  exact Bool.eq_iff_iff.mpr hiff

theorem exists_unites {ms : List Method} {w v : Array Bool} (hv : v.size = w.size)
    (hg : ∀ m ∈ ms, ∃ g, FlowGraph.ofEvents (some v) m.events = .ok g) :
    ∃ U, Unites (fun _ ↦ .same) ms ms w v U := by
  refine ⟨Gain.fire ⟨fun _ ↦ ∅, fun i ↦ v.getD i false⟩ w,
    (unites_same_iff fun _ hm ↦ hm).mpr ⟨Gain.size_fire _ w, fun m hm i hi ↦ ?_⟩⟩
  obtain ⟨g, hg⟩ := hg m hm
  have hlt : i < w.size := hv ▸ readable_some.mp (FlowGraph.readable_of_ofEvents hg hi)
  rw [getD_fire, and_iff_right hlt]

namespace Session

variable {s : Session} {decl : ClassDecl} {ms : List Method} {w v U : Array Bool}
  {snapshot : Snapshot}

theorem analyze_unmerged_congr {t : Session} (h : t.filter = s.filter) (input : ExecutedClass) :
    t.unmerged.analyze input = s.unmerged.analyze input := by
  have hfilter : t.unmerged.filter = s.unmerged.filter := h
  have ht : t.unmerged.previous? input.decl.name = none := rfl
  have hs : s.unmerged.previous? input.decl.name = none := rfl
  rw [analyze_eq, analyze_eq, hfilter, ht, hs]

/-- Merging with a captured run of the same methods reports what the united array reports without
merging, and leaves the array of the current run with the probes that were fired for its methods. -/
theorem analyze_beside (hms : Mergeable ms) (hsnap : Remembers snapshot ms v)
    (hprevious : s.previous? decl.name = some snapshot) (hword : w.size < probeBound)
    (hv : v.size = w.size) (hunites : Unites (fun _ ↦ .same) ms ms w v U) :
    (∃ a plain w', s.analyze ⟨decl, ms, some w⟩ = .ok a ∧
        s.unmerged.analyze ⟨decl, ms, some U⟩ = .ok plain ∧ a.report = plain.report ∧
        a.probes = some w' ∧ Absorbs ms w v w') ∨
      ∃ e, s.analyze ⟨decl, ms, some w⟩ = .error e ∧
        s.unmerged.analyze ⟨decl, ms, some U⟩ = .error e := by
  have hnone : s.unmerged.previous? decl.name = none := rfl
  simp only [analyze_eq, hprevious, hnone]
  have hstart : (ClassRun.start decl s.filter (some snapshot) (some w)).previous = some snapshot :=
    rfl
  rcases mapM_analyze_beside hsnap (fun _ hm ↦ hm) hms.signed hword hv hunites hstart rfl with
    ⟨os, os', run, w', hr, hp, hw', habsorbs⟩ | ⟨e, run, plain, hr, hp⟩
  · left
    change (ms.mapM ClassRun.analyze).run
      (ClassRun.start decl s.unmerged.filter none (some U)) = _ at hp
    rw [hr, hp]
    exact ⟨_, _, w', rfl, rfl, rfl, hw', habsorbs⟩
  · right
    change (ms.mapM ClassRun.analyze).run
      (ClassRun.start decl s.unmerged.filter none (some U)) = _ at hp
    rw [hr, hp]
    exact ⟨e, rfl, rfl⟩

/-- If the united array has a report without merging, merging comes to the same one. -/
theorem analyze_of_unmerged (hms : Mergeable ms) (hsnap : Remembers snapshot ms v)
    (hprevious : s.previous? decl.name = some snapshot) (hword : w.size < probeBound)
    (hv : v.size = w.size) (hunites : Unites (fun _ ↦ .same) ms ms w v U) {plain : Analysis}
    (hplain : s.unmerged.analyze ⟨decl, ms, some U⟩ = .ok plain) :
    ∃ a w', s.analyze ⟨decl, ms, some w⟩ = .ok a ∧ a.report = plain.report ∧
      a.probes = some w' ∧ Absorbs ms w v w' := by
  rcases analyze_beside hms hsnap hprevious hword hv hunites with
    ⟨a, plain', w', ha, hplain', hreport, hprobes, habsorbs⟩ | ⟨e, -, he⟩
  · rw [hplain] at hplain'
    obtain rfl := Except.ok.inj hplain'
    exact ⟨a, w', ha, hreport, hprobes, habsorbs⟩
  · rw [hplain] at he
    cases he

theorem report_of_unmerged (hms : Mergeable ms) (hsnap : Remembers snapshot ms v)
    (hprevious : s.previous? decl.name = some snapshot) (hword : w.size < probeBound)
    (hv : v.size = w.size) (hunites : Unites (fun _ ↦ .same) ms ms w v U) {plain : Analysis}
    (hplain : s.unmerged.analyze ⟨decl, ms, some U⟩ = .ok plain) :
    (s.analyze ⟨decl, ms, some w⟩).map (·.report) = .ok plain.report := by
  obtain ⟨a, -, ha, hreport, -⟩ :=
    analyze_of_unmerged hms hsnap hprevious hword hv hunites hplain
  rw [ha, ← hreport]
  rfl

/-- The array of a merged analysis unites both runs, and has the same report without merging. -/
theorem unites_of_analyze (hms : Mergeable ms) (hsnap : Remembers snapshot ms v)
    (hprevious : s.previous? decl.name = some snapshot) (hword : w.size < probeBound)
    (hv : v.size = w.size) {r : Analysis} (hr : s.analyze ⟨decl, ms, some w⟩ = .ok r) :
    ∃ w' plain, r.probes = some w' ∧ Absorbs ms w v w' ∧
      Unites (fun _ ↦ .same) ms ms w v w' ∧
      s.unmerged.analyze ⟨decl, ms, some w'⟩ = .ok plain ∧ plain.report = r.report := by
  have hg : ∀ m ∈ ms, ∃ g, FlowGraph.ofEvents (some v) m.events = .ok g :=
    fun _ ↦ hsnap.exists_graph rfl
  have hmerged : ∀ {U : Array Bool}, Unites (fun _ ↦ .same) ms ms w v U →
      ∃ plain w', s.unmerged.analyze ⟨decl, ms, some U⟩ = .ok plain ∧ r.report = plain.report ∧
        r.probes = some w' ∧ Absorbs ms w v w' := fun hU ↦ by
    rcases analyze_beside hms hsnap hprevious hword hv hU with
      ⟨a, plain, w', ha, hplain, hreport, hprobes, habsorbs⟩ | ⟨e, he, -⟩
    · rw [hr] at ha
      obtain rfl := Except.ok.inj ha
      exact ⟨plain, w', hplain, hreport, hprobes, habsorbs⟩
    · rw [hr] at he
      cases he
  obtain ⟨U, hU⟩ := exists_unites hv hg
  obtain ⟨-, w', -, -, hprobes, habsorbs⟩ := hmerged hU
  have hunites := habsorbs.unites hms hg
  obtain ⟨plain, -, hplain, hreport, -⟩ := hmerged hunites
  exact ⟨w', plain, hprobes, habsorbs, hunites, hplain, hreport.symm⟩

theorem remembers_of_capture {s' : Session} (hms : Mergeable ms) (hmerge : s.settings.merge = true)
    (h : (capture ⟨decl, ms, some v⟩).run s = .ok () s') :
    ∃ snapshot, s'.previous? decl.name = some snapshot ∧ Remembers snapshot ms v ∧
      s'.filter = s.filter ∧ s'.settings = s.settings := by
  obtain ⟨snapshot, hsnapshot, rfl⟩ := capture_eq_ok_iff.mp h
  refine ⟨snapshot, ?_, remembers_capture hsnapshot hms.hasCode hms.keys, rfl, rfl⟩
  simp [previous?, hmerge]

/-- The array that comes out of a merge, analysed without merging, has the report of the merge. To
merge it again with the captured run gives the same result again; and if it is captured itself,
either of the runs that went in comes to the same report. -/
theorem analyze_absorbs {s s₁ : Session} {decl : ClassDecl} {ms : List Method} {p q : Array Bool}
    {r : Analysis} (hms : Mergeable ms) (hsize : q.size = p.size) (hword : p.size < probeBound)
    (hmerge : s.settings.merge = true)
    (hcapture : (capture ⟨decl, ms, some q⟩).run s = .ok () s₁)
    (hanalyze : s₁.analyze ⟨decl, ms, some p⟩ = .ok r) :
    (s₁.unmerged.analyze ⟨decl, ms, r.probes⟩).map (·.report) = .ok r.report ∧
      s₁.analyze ⟨decl, ms, r.probes⟩ = .ok r ∧
      ∃ s₂, (capture ⟨decl, ms, r.probes⟩).run s.reset = .ok () s₂ ∧
        (s₂.analyze ⟨decl, ms, some p⟩).map (·.report) = .ok r.report ∧
        (s₂.analyze ⟨decl, ms, some q⟩).map (·.report) = .ok r.report := by
  obtain ⟨snapshot, hprevious, hsnap, hfilter, -⟩ := remembers_of_capture hms hmerge hcapture
  obtain ⟨R, plain, hR, habsorbs, hunites, hplain, hreport⟩ :=
    unites_of_analyze hms hsnap hprevious hword hsize hanalyze
  obtain ⟨hsizeR, hfired⟩ := (unites_same_iff fun _ hm ↦ hm).mp hunites
  have hg : ∀ m ∈ ms, ∃ g, FlowGraph.ofEvents (some R) m.events = .ok g :=
    fun _ ↦ hsnap.exists_graph (hsize.trans hsizeR.symm)
  rw [hR]
  refine ⟨?_, ?_, ?_⟩
  · rw [hplain, ← hreport]
    rfl
  · have hself : Unites (fun _ ↦ .same) ms ms R q R :=
      (unites_same_iff fun _ hm ↦ hm).mpr ⟨rfl, fun m hm i hi ↦ by
        rw [hfired m hm i hi, or_assoc, or_self]⟩
    obtain ⟨a, R', ha, hareport, hprobes, habsorbs'⟩ := analyze_of_unmerged hms hsnap hprevious
      (hsizeR.symm ▸ hword) (hsize.trans hsizeR.symm) hself hplain
    have hsame : R' = R := habsorbs'.eq_self fun i hkept hq ↦
      (habsorbs.2 i).mpr (Or.inr ⟨hkept, hq⟩)
    have har : a = r := by
      obtain ⟨report, probes⟩ := a
      obtain ⟨report', probes'⟩ := r
      cases hareport.trans hreport
      cases hprobes.trans ((congrArg some hsame).trans hR.symm)
      rfl
    rw [ha, har]
  · obtain ⟨snapshot₂, hsnapshot₂⟩ := Snapshot.exists_capture (s := { probes := some R })
      fun m hm ↦ ⟨hms.hasCode m hm, hg m hm⟩
    have hcapture₂ : (capture ⟨decl, ms, some R⟩).run s.reset = .ok () _ :=
      capture_eq_ok_iff.mpr ⟨snapshot₂, hsnapshot₂, rfl⟩
    obtain ⟨_, hprevious₂, hsnap₂, hfilter₂, -⟩ :=
      remembers_of_capture (s := s.reset) hms hmerge hcapture₂
    rw [← analyze_unmerged_congr (hfilter₂.trans hfilter.symm)] at hplain
    refine ⟨_, hcapture₂, ?_, ?_⟩
    · have hleft : Unites (fun _ ↦ .same) ms ms p R R :=
        (unites_same_iff fun _ hm ↦ hm).mpr ⟨hsizeR, fun m hm i hi ↦ by
          rw [hfired m hm i hi, ← or_assoc, or_self]⟩
      rw [← hreport]
      exact report_of_unmerged hms hsnap₂ hprevious₂ hword hsizeR hleft hplain
    · have hright : Unites (fun _ ↦ .same) ms ms q R R :=
        (unites_same_iff fun _ hm ↦ hm).mpr ⟨hsizeR.trans hsize.symm, fun m hm i hi ↦ by
          rw [hfired m hm i hi, or_left_comm, or_self]⟩
      rw [← hreport]
      exact report_of_unmerged hms hsnap₂ hprevious₂ (hsize.symm ▸ hword)
        (hsizeR.trans hsize.symm) hright hplain

/-- Two methods, the probe of one between those of the other. -/
def interleaved : List Method :=
  [{ decl := { access := ⟨1⟩, name := "f", desc := "()V" }
     events := [.line 1, .instruction ⟨0⟩ (some "if"), .probe 0 1,
      .instruction ⟨1⟩ (some "return"), .probe 2 0, .endMethod] },
    { decl := { access := ⟨1⟩, name := "g", desc := "()V" }
      events := [.line 2, .instruction ⟨0⟩ (some "return"), .probe 1 0, .endMethod] }]

theorem mergeable_interleaved : Mergeable interleaved where
  keys := by decide
  hasCode := by decide
  signed := by
    rw [interleaved, List.forall_mem_cons, List.forall_mem_singleton]
    exact ⟨⟨by decide, by decide⟩, ⟨by decide, by decide⟩⟩
  probed := by decide

theorem analyze_absorbs_interleaved :
    ∃ s₁ r s₂, (capture ⟨{ name := "A" }, interleaved, some #[false, true, true]⟩).run
        (ofSettings {}) = .ok () s₁ ∧
      s₁.analyze ⟨{ name := "A" }, interleaved, some #[true, false, false]⟩ = .ok r ∧
      (s₁.unmerged.analyze ⟨{ name := "A" }, interleaved, r.probes⟩).map (·.report) =
        .ok r.report ∧
      s₁.analyze ⟨{ name := "A" }, interleaved, r.probes⟩ = .ok r ∧
      (capture ⟨{ name := "A" }, interleaved, r.probes⟩).run (ofSettings {}).reset = .ok () s₂ ∧
      (s₂.analyze ⟨{ name := "A" }, interleaved, some #[true, false, false]⟩).map (·.report) =
        .ok r.report ∧
      (s₂.analyze ⟨{ name := "A" }, interleaved, some #[false, true, true]⟩).map (·.report) =
        .ok r.report := by
  obtain ⟨s₁, hcapture⟩ := Update.exists_run_of_answer
    (u := capture ⟨{ name := "A" }, interleaved, some #[false, true, true]⟩)
    (s := ofSettings {}) (a := ()) (by decide +kernel)
  have hfinal : (capture ⟨{ name := "A" }, interleaved, some #[false, true, true]⟩).final
      (ofSettings {}) = s₁ := by
    rw [Update.final, hcapture]
  have hanalyze : ∃ r, s₁.analyze
      ⟨{ name := "A" }, interleaved, some #[true, false, false]⟩ = .ok r := by
    rw [← hfinal]
    exact exists_eq_ok (by decide +kernel)
  obtain ⟨r, hr⟩ := hanalyze
  obtain ⟨hplain, hself, s₂, hcapture₂, hleft, hright⟩ :=
    analyze_absorbs mergeable_interleaved (by rfl) (by decide) (by rfl) hcapture hr
  exact ⟨s₁, r, s₂, hcapture, hr, hplain, hself, hcapture₂, hleft, hright⟩

end Session

end ProbeCoverage
