import Mathlib.Data.List.Perm.Basic
import ProbeCoverage.FlowGraph.Recording
import ProbeCoverage.RunMerge
import ProbeCoverage.Proofs.Spread

/-!
# Merging as an action

What a merge decides, and what it adds, depends on the run only through its outline: the
instructions without their coverage and the length of the probe array. A merge changes neither, and
it only ever adds. So merges commute, and merging again changes nothing.
-/

namespace ProbeCoverage

/-- What a merge adds: branches to the instructions of a signature, and probes. -/
structure Gain where
  covered : Option String → BranchSet
  fired : Nat → Bool

namespace Gain

def nothing : Gain := ⟨fun _ ↦ ∅, fun _ ↦ false⟩

def cover (g : Gain) (n : Node) : Node := { n with covered := n.covered ∪ g.covered n.signature }

@[simp] theorem signature_cover (g : Gain) (n : Node) : (g.cover n).signature = n.signature := rfl

@[simp] theorem outline_cover (g : Gain) (n : Node) : (g.cover n).outline = n.outline := rfl

theorem cover_nothing (n : Node) : nothing.cover n = n := by
  refine Node.ext_outline rfl fun i ↦ ?_
  simp [cover, nothing]

theorem cover_comm (g h : Gain) (n : Node) : h.cover (g.cover n) = g.cover (h.cover n) := by
  refine Node.ext_outline rfl fun i ↦ ?_
  simp only [cover, BranchSet.mem_union]
  exact or_right_comm

theorem cover_cover (g : Gain) (n : Node) : g.cover (g.cover n) = g.cover n := by
  refine Node.ext_outline rfl fun i ↦ ?_
  simp [cover]

def coverAll (g : Gain) (nodes : Array Node) : Array Node := nodes.map g.cover

theorem coverAll_nothing (nodes : Array Node) : nothing.coverAll nodes = nodes :=
  (Array.map_congr_left fun n _ ↦ cover_nothing n).trans (Array.map_id' _)

theorem coverAll_comm (g h : Gain) (nodes : Array Node) :
    h.coverAll (g.coverAll nodes) = g.coverAll (h.coverAll nodes) := by
  simp only [coverAll, Array.map_map]
  exact Array.map_congr_left fun n _ ↦ cover_comm g h n

theorem coverAll_coverAll (g : Gain) (nodes : Array Node) :
    g.coverAll (g.coverAll nodes) = g.coverAll nodes := by
  simp only [coverAll, Array.map_map]
  exact Array.map_congr_left fun n _ ↦ cover_cover g n

theorem outlines_coverAll (g : Gain) (nodes : Array Node) :
    outlines (g.coverAll nodes) = outlines nodes := by
  simp only [outlines, coverAll, Array.map_map]
  exact Array.map_congr_left fun n _ ↦ outline_cover g n

def fire (g : Gain) (probes : Array Bool) : Array Bool :=
  probes.mapIdx fun i fired ↦ fired || g.fired i

@[simp] theorem size_fire (g : Gain) (probes : Array Bool) :
    (g.fire probes).size = probes.size := by
  simp [fire]

theorem getElem?_fire (g : Gain) (probes : Array Bool) (i : Nat) :
    (g.fire probes)[i]? = probes[i]?.map (· || g.fired i) := by
  simp [fire]

theorem fire_nothing (probes : Array Bool) : nothing.fire probes = probes :=
  Array.ext_getElem? fun i ↦ by simp [getElem?_fire, nothing]

theorem fire_comm (g h : Gain) (probes : Array Bool) :
    h.fire (g.fire probes) = g.fire (h.fire probes) :=
  Array.ext_getElem? fun i ↦ by
    simp [getElem?_fire, Function.comp_def, Bool.or_right_comm]

theorem fire_fire (g : Gain) (probes : Array Bool) : g.fire (g.fire probes) = g.fire probes :=
  Array.ext_getElem? fun i ↦ by simp [getElem?_fire, Function.comp_def]

def ofImprint (m : Imprint) : Option String → BranchSet :=
  fun signature ↦ (signature.bind m.get?).elim ∅ (·.covered)

end Gain

/-! ## Spans of equal width -/

namespace ProbeSpan

variable {className method : String} {a b : Option ProbeSpan}

theorem eq_of_width_eq_ok {s : ProbeSpan} {n : Nat} (h : s.width = .ok n) :
    n = s.last - s.first + 1 := by
  rw [width, addBelow] at h
  split at h
  · exact (Except.ok.inj h).symm
  · cases h

/-- The width of the span of a method, which may use no probe. -/
def widthOf (o : Option ProbeSpan) : Except Fault Nat := o.elim (.ok 0) width

/-- Both widths are computed, and the spans are refused if these differ. -/
theorem alignSpans_eq_bind (className method : String) (a b : Option ProbeSpan) :
    alignSpans className method a b = widthOf a >>= fun n ↦ widthOf b >>= fun n' ↦
      if n = n' then .ok (a.bind fun s ↦ b.map (s, ·))
      else .error (.probeSpanMismatch className method n n') := by
  rcases a with _ | s <;> rcases b with _ | t
  · rfl
  · change (t.width >>= _) = (t.width >>= _)
    cases ht : t.width with
    | error e => rfl
    | ok n' =>
      obtain rfl := eq_of_width_eq_ok ht
      rfl
  · change (s.width >>= _) = (s.width >>= _)
    cases hs : s.width with
    | error e => rfl
    | ok n =>
      obtain rfl := eq_of_width_eq_ok hs
      rfl
  · rfl

/-- Spans that are aligned are those of both runs, if both have one. -/
theorem eq_of_alignSpans {spans : Option (ProbeSpan × ProbeSpan)}
    (h : alignSpans className method a b = .ok spans) :
    spans = a.bind fun s ↦ b.map (s, ·) := by
  rw [alignSpans_eq_bind] at h
  obtain ⟨n, -, h⟩ := bind_eq_ok_iff.mp h
  obtain ⟨n', -, h⟩ := bind_eq_ok_iff.mp h
  split at h
  · exact (Except.ok.inj h).symm
  · cases h

theorem eq_of_alignSpans_some {s t : ProbeSpan}
    (h : alignSpans className method a b = .ok (some (s, t))) : a = some s ∧ b = some t := by
  have hpair := (eq_of_alignSpans h).symm
  simp only [Option.bind_eq_some_iff, Option.map_eq_some_iff, Prod.mk.injEq] at hpair
  obtain ⟨_, hs, _, ht, rfl, rfl⟩ := hpair
  exact ⟨hs, ht⟩

end ProbeSpan

namespace MethodRun

def gather (run : MethodRun) (g : Gain) : MethodRun where
  graph := { run.graph with nodes := g.coverAll run.graph.nodes }
  probes := run.probes.map g.fire

theorem gather_nothing (run : MethodRun) : run.gather .nothing = run := by
  have hprobes : run.probes.map Gain.nothing.fire = run.probes := by
    cases run.probes with
    | none => rfl
    | some probes => rw [Option.map_some, Gain.fire_nothing]
  rw [gather, Gain.coverAll_nothing, hprobes]

theorem gather_comm (run : MethodRun) (g h : Gain) :
    (run.gather g).gather h = (run.gather h).gather g := by
  simp only [gather, Gain.coverAll_comm g h, Option.map_map, Function.comp_def,
    Gain.fire_comm g h]

theorem gather_gather (run : MethodRun) (g : Gain) :
    (run.gather g).gather g = run.gather g := by
  simp only [gather, Gain.coverAll_coverAll, Option.map_map, Function.comp_def, Gain.fire_fire]

/-! ## What a merge decides -/

/-- The probes that a previous array adds, for an array of `size` entries. -/
def firedBy : Option (ProbeSpan × ProbeSpan) → Option Nat → Option (Array Bool) →
    Except Fault (Nat → Bool)
  | some (span, previousSpan), some size, some previous =>
    if size ≤ span.last then .error (.probeOutOfBounds span.last size)
    else if previous.size ≤ previousSpan.last then
      .error (.probeOutOfBounds previousSpan.last previous.size)
    else .ok fun i ↦
      span.contains i && previous.getD (previousSpan.first + (i - span.first)) false
  | _, _, _ => .ok fun _ ↦ false

/-- The outcome of a merge, and what it adds. -/
def verdict (className method : String) (previous : Option Imprint)
    (previousProbes : Option (Array Bool)) (run : MethodRun) :
    Except Fault (MergeOutcome × Gain) :=
  match previous with
  | none => .ok (.noPrevious, .nothing)
  | some imprint =>
    if imprint.size ≠ run.graph.size then
      .ok (.nodeCountMismatch run.graph.size imprint.size, .nothing)
    else if imprint.missingIn run.graph ≠ [] then
      .ok (.signatureMismatch (imprint.missingIn run.graph), .nothing)
    else do
      let spans ← alignSpans className method run.graph.probeSpan imprint.probeSpan
      let fired ← firedBy spans (run.probes.map (·.size)) previousProbes
      return (.merged, ⟨Gain.ofImprint imprint, fired⟩)

/-- Either nothing is merged and nothing added, or all checks were passed. -/
theorem verdict_cases {className method : String} {previous : Option Imprint}
    {previousProbes : Option (Array Bool)} {run : MethodRun} {outcome : MergeOutcome} {gain : Gain}
    (h : verdict className method previous previousProbes run = .ok (outcome, gain)) :
    (outcome ≠ .merged ∧ gain = .nothing) ∨
      ∃ imprint spans fired, previous = some imprint ∧ imprint.size = run.graph.size ∧
        imprint.missingIn run.graph = [] ∧
        alignSpans className method run.graph.probeSpan imprint.probeSpan = .ok spans ∧
        firedBy spans (run.probes.map (·.size)) previousProbes = .ok fired ∧
        outcome = .merged ∧ gain = ⟨Gain.ofImprint imprint, fired⟩ := by
  cases previous with
  | none =>
    cases h
    exact Or.inl ⟨by decide, rfl⟩
  | some imprint =>
    simp only [verdict] at h
    split at h
    · cases h
      exact Or.inl ⟨nofun, rfl⟩
    next hsize =>
      split at h
      · cases h
        exact Or.inl ⟨nofun, rfl⟩
      next hmissing =>
        obtain ⟨spans, hspans, h⟩ := bind_eq_ok_iff.mp h
        obtain ⟨fired, hfired, h⟩ := bind_eq_ok_iff.mp h
        cases h
        exact Or.inr ⟨imprint, spans, fired, rfl, not_not.mp hsize, not_not.mp hmissing, hspans,
          hfired, rfl, rfl⟩

/-- A merge is refused only after the signatures were found to agree, for its spans or for the
lengths of the arrays. -/
theorem verdict_eq_error_iff {className method : String} {previous : Option Imprint}
    {previousProbes : Option (Array Bool)} {run : MethodRun} {e : Fault} :
    verdict className method previous previousProbes run = .error e ↔
      ∃ imprint, previous = some imprint ∧ imprint.size = run.graph.size ∧
        imprint.missingIn run.graph = [] ∧
        (alignSpans className method run.graph.probeSpan imprint.probeSpan = .error e ∨
          ∃ spans, alignSpans className method run.graph.probeSpan imprint.probeSpan = .ok spans ∧
            firedBy spans (run.probes.map (·.size)) previousProbes = .error e) := by
  cases previous with
  | none => simp [verdict]
  | some imprint =>
    simp only [verdict, Option.some.injEq, exists_eq_left']
    by_cases hsize : imprint.size = run.graph.size
    · by_cases hmissing : imprint.missingIn run.graph = []
      · simp only [hsize, hmissing, ne_eq, not_true_eq_false, if_false, true_and,
          bind_eq_error_iff]
        refine or_congr_right (exists_congr fun spans ↦ and_congr_right fun _ ↦ ?_)
        exact or_iff_left fun ⟨_, _, hpure⟩ ↦ nomatch hpure
      · simp [hsize, hmissing]
    · simp [hsize]

/-- Arrays are refused only if a span does not fit into one of them. -/
theorem cases_of_firedBy_error {spans : Option (ProbeSpan × ProbeSpan)} {size : Option Nat}
    {previous : Option (Array Bool)} {e : Fault} (h : firedBy spans size previous = .error e) :
    ∃ s t k q, spans = some (s, t) ∧ size = some k ∧ previous = some q ∧
      (k ≤ s.last ∧ e = .probeOutOfBounds s.last k ∨
        q.size ≤ t.last ∧ e = .probeOutOfBounds t.last q.size) := by
  unfold firedBy at h
  split at h
  next s t k q =>
    refine ⟨s, t, k, q, rfl, rfl, rfl, ?_⟩
    split at h
    next hle =>
      cases h
      exact Or.inl ⟨hle, rfl⟩
    next =>
      split at h
      next hle =>
        cases h
        exact Or.inr ⟨hle, rfl⟩
      next => cases h
  next => cases h

/-- A probe of the span is fired if both arrays are there and its counterpart fired. -/
theorem fired_iff_of_firedBy {spans : Option (ProbeSpan × ProbeSpan)} {size : Option Nat}
    {previous : Option (Array Bool)} {fired : Nat → Bool}
    (h : firedBy spans size previous = .ok fired) {i : Nat} :
    fired i = true ↔ ∃ s t q, spans = some (s, t) ∧ size.isSome = true ∧ previous = some q ∧
      s.contains i = true ∧ q[t.first + (i - s.first)]? = some true := by
  unfold firedBy at h
  split at h
  next s t k q =>
    split at h
    · cases h
    · split at h
      · cases h
      · cases h
        simp [Option.getD_eq_iff]
  next hnone =>
    cases h
    constructor
    · exact nofun
    · rintro ⟨s, t, q, rfl, hsize, rfl, -⟩
      obtain ⟨k, rfl⟩ := Option.isSome_iff_exists.mp hsize
      exact absurd rfl (hnone s t k q rfl rfl)

/-- A merge that takes place fires the probes of the span of its graph whose counterparts in the
span of the imprint fired, if both runs have an array. -/
theorem fired_iff {className method : String} {previous : Option Imprint}
    {previousProbes : Option (Array Bool)} {run : MethodRun} {outcome : MergeOutcome} {gain : Gain}
    (h : verdict className method previous previousProbes run = .ok (outcome, gain)) {i : Nat} :
    gain.fired i = true ↔ outcome = .merged ∧ run.probes.isSome = true ∧
      ∃ imprint s t q, previous = some imprint ∧ run.graph.probeSpan = some s ∧
        imprint.probeSpan = some t ∧ previousProbes = some q ∧ s.contains i = true ∧
        q[t.first + (i - s.first)]? = some true := by
  rcases verdict_cases h with ⟨hout, rfl⟩ |
    ⟨imprint, spans, fired, rfl, -, -, hspans, hfired, rfl, rfl⟩
  · simp [hout, Gain.nothing]
  · obtain rfl := ProbeSpan.eq_of_alignSpans hspans
    rw [fired_iff_of_firedBy hfired, Option.isSome_map]
    simp only [Option.bind_eq_some_iff, Option.map_eq_some_iff, Prod.mk.injEq, true_and]
    constructor
    · rintro ⟨_, _, q, ⟨s, hs, t, ht, rfl, rfl⟩, hsize, hq, hi⟩
      exact ⟨hsize, imprint, s, t, q, rfl, hs, ht, hq, hi⟩
    · rintro ⟨hsize, _, s, t, q, hprevious, hs, ht, hq, hi⟩
      cases hprevious
      exact ⟨s, t, q, ⟨s, hs, t, ht, rfl, rfl⟩, hsize, hq, hi⟩

theorem run_fireProbes (span previousSpan : ProbeSpan) (probes previous : Array Bool) :
    (fireProbes span previous previousSpan).run probes =
      match firedBy (some (span, previousSpan)) (some probes.size) (some previous) with
      | .ok fired => .ok () (Gain.fire ⟨fun _ ↦ ∅, fired⟩ probes)
      | .error e => .error e probes := by
  change fireProbes span previous previousSpan probes = _
  simp only [fireProbes, firedBy]
  split
  · rfl
  · split <;> rfl

theorem run_mergeProbes (spans : Option (ProbeSpan × ProbeSpan)) (previous : Option (Array Bool))
    (run : MethodRun) : (mergeProbes spans previous).run run =
      match firedBy spans (run.probes.map (·.size)) previous with
      | .ok fired => .ok () { run with probes := run.probes.map (Gain.fire ⟨fun _ ↦ ∅, fired⟩) }
      | .error e => .error e run := by
  have hprobes : run.probes.map (Gain.fire ⟨fun _ ↦ ∅, fun _ ↦ false⟩) = run.probes :=
    congrArg MethodRun.probes (gather_nothing run)
  have hsame : { run with probes := run.probes.map (Gain.fire ⟨fun _ ↦ ∅, fun _ ↦ false⟩) } =
      run := by rw [hprobes]
  change mergeProbes spans previous run = _
  rcases spans with _ | ⟨span, previousSpan⟩
  · exact congrArg (EStateM.Result.ok ()) hsame.symm
  · obtain ⟨graph, probes⟩ := run
    rcases probes with _ | probes
    · rfl
    · rcases previous with _ | previous
      · exact congrArg (EStateM.Result.ok ()) hsame.symm
      · simp only [mergeProbes, run_fireProbes, Option.map_some]
        cases firedBy (some (span, previousSpan)) (some probes.size) (some previous) <;> rfl

theorem absorb_eq (g : FlowGraph) (m : Imprint) (fired : Nat → Bool) :
    g.absorb m = { g with nodes := (Gain.mk (Gain.ofImprint m) fired).coverAll g.nodes } := by
  have hnode : ∀ n : Node, (n.signature.bind m.get?).elim n n.absorb =
      (Gain.mk (Gain.ofImprint m) fired).cover n := fun n ↦ by
    cases hn : n.signature.bind m.get? with
    | none =>
      refine Node.ext_outline rfl fun i ↦ ?_
      simp [Gain.cover, Gain.ofImprint, hn]
    | some prior => simp [Gain.cover, Gain.ofImprint, hn, Node.absorb]
  simp only [FlowGraph.absorb, Gain.coverAll, hnode]

/-- A merge decides, and then adds what it has to add. -/
theorem run_merge (className method : String) (previous : Option Imprint)
    (previousProbes : Option (Array Bool)) (run : MethodRun) :
    (merge className method previous previousProbes).run run =
      match verdict className method previous previousProbes run with
      | .ok (outcome, gain) => .ok outcome (run.gather gain)
      | .error e => .error e run := by
  unfold merge verdict
  rcases previous with _ | imprint
  · simp [gather_nothing]
  · simp only [EStateM.run_bind, EStateM.run_get]
    by_cases hsize : imprint.size = run.graph.size
    · by_cases hmissing : imprint.missingIn run.graph = []
      · simp only [hsize, hmissing, ne_eq, not_true_eq_false, if_false, EStateM.run_bind]
        cases alignSpans className method run.graph.probeSpan imprint.probeSpan with
        | error e => rfl
        | ok spans =>
          have hbind : ∀ f : Option (ProbeSpan × ProbeSpan) → Except Fault (MergeOutcome × Gain),
              (Except.ok spans >>= f) = f spans := fun _ ↦ rfl
          simp only [Update.run_liftM_ok, hbind, run_mergeProbes]
          cases firedBy spans (run.probes.map (·.size)) previousProbes with
          | error e => rfl
          | ok fired =>
            simp only [EStateM.run_modify, absorb_eq _ imprint fired]
            rfl
      · simp [hsize, hmissing, gather_nothing]
    · simp [hsize, gather_nothing]

theorem answer_merge (className method : String) (previous : Option Imprint)
    (previousProbes : Option (Array Bool)) (run : MethodRun) :
    (merge className method previous previousProbes).answer run =
      (verdict className method previous previousProbes run).map (·.1) := by
  rw [Update.answer, run_merge]
  cases verdict className method previous previousProbes run <;> rfl

theorem run_merge_eq_merged {className method : String} {imprint : Imprint}
    {previousProbes : Option (Array Bool)} {run : MethodRun}
    {spans : Option (ProbeSpan × ProbeSpan)} {fired : Nat → Bool}
    (hsize : imprint.size = run.graph.size) (hmissing : imprint.missingIn run.graph = [])
    (halign : alignSpans className method run.graph.probeSpan imprint.probeSpan = .ok spans)
    (hfired : firedBy spans (run.probes.map (·.size)) previousProbes = .ok fired) :
    (merge className method (some imprint) previousProbes).run run =
      .ok .merged (run.gather ⟨Gain.ofImprint imprint, fired⟩) := by
  have hverdict : verdict className method (some imprint) previousProbes run =
      .ok (.merged, ⟨Gain.ofImprint imprint, fired⟩) := by
    simp only [verdict, hsize, hmissing, halign, ne_eq, not_true_eq_false, if_false]
    change (firedBy spans (run.probes.map (·.size)) previousProbes >>= fun fired ↦ _) = _
    rw [hfired]
    rfl
  rw [run_merge, hverdict]

end MethodRun

/-! ## The outline of a run -/

theorem FlowGraph.signatures_of_outlines {g g' : FlowGraph}
    (h : outlines g.nodes = outlines g'.nodes) : g.signatures = g'.signatures := by
  have hout : ∀ g : FlowGraph, g.signatures =
      (outlines g.nodes).toList.foldl (fun s n ↦ n.signature.elim s s.insert) ∅ := fun g ↦ by
    rw [outlines, Array.toList_map, List.foldl_map]
    rfl
  rw [hout g, hout g', h]

theorem FlowGraph.probeSpan_of_outlines {g g' : FlowGraph}
    (h : outlines g.nodes = outlines g'.nodes) : g.probeSpan = g'.probeSpan := by
  have hout : ∀ g : FlowGraph, g.probeSpan =
      ProbeSpan.ofProbes ((outlines g.nodes).toList.filterMap (·.probe)) := fun g ↦ by
    rw [outlines, Array.toList_map, List.filterMap_map]
    rfl
  rw [hout g, hout g', h]

namespace MethodRun

/-- The runs differ only in what was covered and what fired. -/
structure SameShape (run run' : MethodRun) : Prop where
  nodes : outlines run.graph.nodes = outlines run'.graph.nodes
  probes : run.probes.map (·.size) = run'.probes.map (·.size)

theorem SameShape.rfl {run : MethodRun} : SameShape run run := ⟨Eq.refl _, Eq.refl _⟩

theorem SameShape.trans {run run' run'' : MethodRun} (h : SameShape run run')
    (h' : SameShape run' run'') : SameShape run run'' :=
  ⟨h.nodes.trans h'.nodes, h.probes.trans h'.probes⟩

theorem sameShape_gather (run : MethodRun) (g : Gain) : SameShape (run.gather g) run where
  nodes := Gain.outlines_coverAll g run.graph.nodes
  probes := by simp [gather, Function.comp_def]

theorem verdict_of_sameShape {run run' : MethodRun} (h : SameShape run run')
    (className method : String) (previous : Option Imprint)
    (previousProbes : Option (Array Bool)) :
    verdict className method previous previousProbes run =
      verdict className method previous previousProbes run' := by
  have hsize : run.graph.size = run'.graph.size := size_eq_of_outlines h.nodes
  have hmissing : ∀ m : Imprint, m.missingIn run.graph = m.missingIn run'.graph := fun m ↦ by
    rw [Imprint.missingIn, Imprint.missingIn, FlowGraph.signatures_of_outlines h.nodes]
  simp only [verdict, hsize, hmissing, FlowGraph.probeSpan_of_outlines h.nodes, h.probes]

end MethodRun

/-! ## Many merges -/

/-- What one merge takes from a previous run. -/
structure MergeStep where
  imprint : Option Imprint
  probes : Option (Array Bool)

namespace MethodRun

variable {className method : String}

def mergeStep (className method : String) (s : MergeStep) : Update MethodRun MergeOutcome :=
  merge className method s.imprint s.probes

/-- Merges one step after the other, whatever each of them answers. The answers and the run that is
left at the end. -/
def mergeAll (className method : String) (run : MethodRun) :
    List MergeStep → List (Except Fault MergeOutcome) × MethodRun
  | [] => ([], run)
  | s :: steps =>
    let rest := ((mergeStep className method s).final run).mergeAll className method steps
    ((mergeStep className method s).answer run :: rest.1, rest.2)

/-- What a step adds to `run`; a step that fails or does not apply adds nothing. -/
def gain (className method : String) (run : MethodRun) (s : MergeStep) : Gain :=
  match verdict className method s.imprint s.probes run with
  | .ok (_, g) => g
  | .error _ => .nothing

theorem answer_mergeStep (run : MethodRun) (s : MergeStep) :
    (mergeStep className method s).answer run =
      (verdict className method s.imprint s.probes run).map (·.1) :=
  answer_merge className method s.imprint s.probes run

theorem final_mergeStep (run : MethodRun) (s : MergeStep) :
    (mergeStep className method s).final run = run.gather (run.gain className method s) := by
  rw [Update.final, mergeStep, run_merge, gain]
  cases verdict className method s.imprint s.probes run with
  | ok v => rfl
  | error e => exact (gather_nothing run).symm

/-- Every step answers and adds what it would if it were the first. -/
theorem mergeAll_of_sameShape {run run' : MethodRun} (h : SameShape run' run)
    (steps : List MergeStep) : run'.mergeAll className method steps =
      (steps.map fun s ↦ (mergeStep className method s).answer run,
        steps.foldl (fun r s ↦ r.gather (run.gain className method s)) run') := by
  induction steps generalizing run' with
  | nil => rfl
  | cons s steps ih =>
    have hanswer : (mergeStep className method s).answer run' =
        (mergeStep className method s).answer run := by
      rw [answer_mergeStep, answer_mergeStep, verdict_of_sameShape h]
    have hgain : run'.gain className method s = run.gain className method s := by
      rw [gain, gain, verdict_of_sameShape h]
    rw [mergeAll, final_mergeStep, hgain, hanswer, ih ((sameShape_gather run' _).trans h)]
    rfl

end MethodRun

section Absorbing

variable {α β : Type} {f : β → α → β}

theorem foldl_absorb (hcomm : ∀ b x y, f (f b x) y = f (f b y) x)
    (hself : ∀ b x, f (f b x) x = f b x) {l : List α} {x : α} (hx : x ∈ l) (b : β) :
    l.foldl f (f b x) = l.foldl f b := by
  induction l generalizing b with
  | nil => cases hx
  | cons y l ih =>
    rw [List.foldl_cons, List.foldl_cons]
    rcases List.mem_cons.mp hx with rfl | hx
    · rw [hself]
    · rw [hcomm, ih hx]

theorem foldl_absorb_foldl (hcomm : ∀ b x y, f (f b x) y = f (f b y) x)
    (hself : ∀ b x, f (f b x) x = f b x) {l l' : List α} (h : ∀ x ∈ l', x ∈ l) (b : β) :
    l.foldl f (l'.foldl f b) = l.foldl f b := by
  induction l' generalizing b with
  | nil => rfl
  | cons x l' ih =>
    rw [List.foldl_cons, ih fun y hy ↦ h y (List.mem_cons_of_mem x hy),
      foldl_absorb hcomm hself (h x List.mem_cons_self)]

/-- Steps that commute and absorb themselves: only the set of steps counts. -/
theorem foldl_eq_of_mem_iff (hcomm : ∀ b x y, f (f b x) y = f (f b y) x)
    (hself : ∀ b x, f (f b x) x = f b x) {l l' : List α} (h : ∀ x, x ∈ l' ↔ x ∈ l) (b : β) :
    l'.foldl f b = l.foldl f b := by
  have : RightCommutative f := ⟨hcomm⟩
  calc l'.foldl f b
    _ = l'.foldl f (l.foldl f b) :=
      (foldl_absorb_foldl hcomm hself (fun x ↦ (h x).mpr) b).symm
    _ = (l ++ l').foldl f b := List.foldl_append.symm
    _ = (l' ++ l).foldl f b := List.perm_append_comm.foldl_eq b
    _ = l.foldl f (l'.foldl f b) := List.foldl_append
    _ = l.foldl f b := foldl_absorb_foldl hcomm hself (fun x ↦ (h x).mp) b

end Absorbing

namespace MethodRun

/-- Merging is a commutative and idempotent action: every step answers as if it were the first,
and the run at the end depends on the set of steps alone. -/
theorem mergeAll_eq (className method : String) (run : MethodRun) (steps : List MergeStep) :
    (run.mergeAll className method steps).1 =
        steps.map (fun s ↦ (mergeStep className method s).answer run) ∧
      ∀ steps' : List MergeStep, (∀ s, s ∈ steps' ↔ s ∈ steps) →
        (run.mergeAll className method steps').2 = (run.mergeAll className method steps).2 := by
  refine ⟨?_, fun steps' hsame ↦ ?_⟩
  · rw [mergeAll_of_sameShape .rfl]
  · rw [mergeAll_of_sameShape .rfl, mergeAll_of_sameShape .rfl]
    refine foldl_eq_of_mem_iff (fun r s t ↦ ?_) (fun r s ↦ ?_) hsame run
    · exact r.gather_comm _ _
    · exact r.gather_gather _

/-- A test that falls through or jumps, with a probe on either side of it. -/
def twoWay (first : Nat) : List Event :=
  [.instruction ⟨0⟩ (some "if"), .jump ⟨0⟩ 1, .instruction ⟨1⟩ (some "then"), .probe first 0,
    .noSuccessor, .label ⟨0⟩ true, .instruction ⟨2⟩ (some "else"), .probe (first + 1) 0, .endMethod]

/-- Two runs that took one branch each are merged into one that took none. -/
theorem mergeAll_eq_tookBranch :
    ∃ g a b, FlowGraph.ofEvents (some #[false, false]) (twoWay 0) = .ok g ∧
      FlowGraph.ofEvents (some #[true, false]) (twoWay 0) = .ok a ∧
      FlowGraph.ofEvents (some #[false, true]) (twoWay 0) = .ok b ∧
      let run : MethodRun := ⟨g, some #[false, false]⟩
      let fell : MergeStep := ⟨a.imprint?, some #[true, false]⟩
      let jumped : MergeStep := ⟨b.imprint?, some #[false, true]⟩
      (run.mergeAll "A" "m" [fell, jumped]).1 = [.ok .merged, .ok .merged] ∧
        (run.mergeAll "A" "m" [jumped, fell, jumped]).2 =
          (run.mergeAll "A" "m" [fell, jumped]).2 := by
  obtain ⟨g, hg⟩ : ∃ g, FlowGraph.ofEvents (some #[false, false]) (twoWay 0) = .ok g :=
    exists_eq_ok (by decide +kernel)
  obtain ⟨a, ha⟩ : ∃ a, FlowGraph.ofEvents (some #[true, false]) (twoWay 0) = .ok a :=
    exists_eq_ok (by decide +kernel)
  obtain ⟨b, hb⟩ : ∃ b, FlowGraph.ofEvents (some #[false, true]) (twoWay 0) = .ok b :=
    exists_eq_ok (by decide +kernel)
  have hanswers : (do
      let g ← FlowGraph.ofEvents (some #[false, false]) (twoWay 0)
      let a ← FlowGraph.ofEvents (some #[true, false]) (twoWay 0)
      let b ← FlowGraph.ofEvents (some #[false, true]) (twoWay 0)
      return [(merge "A" "m" a.imprint? (some #[true, false])).answer ⟨g, some #[false, false]⟩,
        (merge "A" "m" b.imprint? (some #[false, true])).answer ⟨g, some #[false, false]⟩]) =
      .ok [.ok .merged, .ok .merged] := by decide +kernel
  rw [hg, ha, hb] at hanswers
  refine ⟨g, a, b, hg, ha, hb, ?_⟩
  intro run fell jumped
  have hall := mergeAll_eq "A" "m" run [fell, jumped]
  refine ⟨hall.1.trans (Except.ok.inj hanswers), hall.2 _ fun s ↦ ?_⟩
  simp only [List.mem_cons, List.not_mem_nil, or_false]
  grind

end MethodRun

end ProbeCoverage
