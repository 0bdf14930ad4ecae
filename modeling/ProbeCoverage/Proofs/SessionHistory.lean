import Mathlib.Data.Finset.Card
import Mathlib.Data.List.DropRight
import Mathlib.Data.List.Perm.Basic
import ProbeCoverage.Proofs.CoverageOrder
import ProbeCoverage.Proofs.SessionRerun

/-!
# Sessions as registers

Whatever is called on a session, in whatever order the classes of a batch are taken, all that a
later analysis can see of it is the last run of its own class that was captured since the session
was reset. A session so holds one register for each class name, and the last write to it counts.

An analysis, of one class or of a batch, takes the session as a value and gives back reports, so by
its type it leaves the session alone. A filter is a pure function of a method, its graph and its
class. Should one capture a class while it runs, that capture is a further call of the history,
after the analysis, which reads the session when it begins.
-/

namespace ProbeCoverage

/-! ## Batches -/

theorem mapM_eq_ok_iff {α β : Type} {f : α → Except Fault β} {as : List α} {bs : List β} :
    as.mapM f = .ok bs ↔ List.Forall₂ (fun a b ↦ f a = .ok b) as bs := by
  induction as generalizing bs with
  | nil =>
    rw [List.mapM_nil, List.forall₂_nil_left_iff]
    exact ⟨fun h ↦ (Except.ok.inj h).symm, fun h ↦ congrArg Except.ok h.symm⟩
  | cons a as ih =>
    rw [List.mapM_cons, bind_eq_ok_iff, List.forall₂_cons_left_iff]
    refine exists_congr fun b ↦ ?_
    simp only [bind_eq_ok_iff, ih]
    constructor
    · rintro ⟨hb, bs', hbs, h⟩
      exact ⟨bs', hb, hbs, (Except.ok.inj h).symm⟩
    · rintro ⟨bs', hb, hbs, rfl⟩
      exact ⟨hb, bs', hbs, rfl⟩

/-- Taken in another order, the elements have the same results. -/
theorem exists_mapM_of_perm {α β : Type} {f : α → Except Fault β} {as as' : List α} {bs : List β}
    (hperm : as'.Perm as) (h : as.mapM f = .ok bs) :
    ∃ bs', as'.mapM f = .ok bs' ∧ bs'.Perm bs := by
  obtain ⟨bs', hbs', hresults⟩ := List.perm_comp_forall₂ hperm (mapM_eq_ok_iff.mp h)
  exact ⟨bs', mapM_eq_ok_iff.mpr hbs', hresults⟩

/-! ## The last run of a class -/

/-- What a session keeps of the run, unless the class cannot be captured. -/
def ExecutedClass.snapshot? (input : ExecutedClass) : Option Snapshot :=
  (Snapshot.capture input.methods input.probes).toOption

/-- The last run in the list that is one of the class. -/
def lastOf? (inputs : List ExecutedClass) (className : String) : Option ExecutedClass :=
  inputs.reverse.find? (·.decl.name = className)

section LastOf

variable {inputs order : List ExecutedClass} {className : String}

@[simp] theorem lastOf?_nil : lastOf? [] className = none := rfl

theorem lastOf?_append (inputs more : List ExecutedClass) (className : String) :
    lastOf? (inputs ++ more) className =
      (lastOf? more className).or (lastOf? inputs className) := by
  rw [lastOf?, List.reverse_append, List.find?_append, ← lastOf?, ← lastOf?]

theorem lastOf?_append_singleton (inputs : List ExecutedClass) (input : ExecutedClass)
    (className : String) : lastOf? (inputs ++ [input]) className =
      if input.decl.name = className then some input else lastOf? inputs className := by
  rw [lastOf?_append]
  by_cases h : input.decl.name = className
  · simp [lastOf?, h]
  · simp [lastOf?, h]

theorem mem_of_lastOf? {input : ExecutedClass} (h : lastOf? inputs className = some input) :
    input ∈ inputs ∧ input.decl.name = className :=
  ⟨List.mem_reverse.mp (List.mem_of_find?_eq_some h), by simpa using List.find?_some h⟩

theorem isSome_lastOf?_iff :
    (lastOf? inputs className).isSome ↔ className ∈ inputs.map (·.decl.name) := by
  rw [lastOf?, List.find?_isSome, List.mem_map]
  simp only [List.mem_reverse, decide_eq_true_eq]

/-- Among classes with different names, the last one of a name is the only one. -/
theorem lastOf?_eq_some_iff (hdistinct : (inputs.map (·.decl.name)).Nodup)
    {input : ExecutedClass} : lastOf? inputs className = some input ↔
      input ∈ inputs ∧ input.decl.name = className := by
  refine ⟨mem_of_lastOf?, fun ⟨hmem, hname⟩ ↦ ?_⟩
  have hsome : (lastOf? inputs className).isSome :=
    isSome_lastOf?_iff.mpr (List.mem_map.mpr ⟨input, hmem, hname⟩)
  obtain ⟨other, hother⟩ := Option.isSome_iff_exists.mp hsome
  obtain ⟨hmem', hname'⟩ := mem_of_lastOf? hother
  rw [hother, List.inj_on_of_nodup_map hdistinct hmem' hmem (hname'.trans hname.symm)]

theorem lastOf?_perm (hperm : order.Perm inputs) (hdistinct : (inputs.map (·.decl.name)).Nodup) :
    lastOf? order className = lastOf? inputs className := by
  have hdistinct' : (order.map (·.decl.name)).Nodup :=
    (hperm.map _).nodup_iff.mpr hdistinct
  ext input
  rw [lastOf?_eq_some_iff hdistinct', lastOf?_eq_some_iff hdistinct, hperm.mem_iff]

end LastOf

namespace Session

/-! ## Calls -/

inductive Call
  | capture (input : ExecutedClass)
  | captureAll (inputs : List ExecutedClass)
  | analyze (input : ExecutedClass)
  | analyzeAll (inputs : List ExecutedClass)
  | reset
deriving DecidableEq

namespace Call

/-- What a call makes of a session. A batch is of different classes, none of which fails; they are
captured in any order. -/
inductive Takes : Call → Session → Session → Prop
  | capture {input : ExecutedClass} {s : Session} :
    Takes (.capture input) s ((Session.capture input).final s)
  | captureAll {inputs order : List ExecutedClass} {s s' : Session} :
    (inputs.map (·.decl.name)).Nodup → order.Perm inputs →
      (Session.captureAll order).run s = .ok () s' → Takes (.captureAll inputs) s s'
  | analyze {input : ExecutedClass} {s : Session} : Takes (.analyze input) s s
  | analyzeAll {inputs : List ExecutedClass} {s : Session} : Takes (.analyzeAll inputs) s s
  | reset {s : Session} : Takes .reset s s.reset

/-- The runs that a call captures, if it can. -/
def captured : Call → List ExecutedClass
  | .capture input => if input.snapshot?.isSome then [input] else []
  | .captureAll inputs => inputs
  | .analyze _ | .analyzeAll _ | .reset => []

end Call

def fresh (settings : Settings) (filter : Filter) : Session := { settings, filter }

/-- The session after calls to a fresh one. -/
inductive History (settings : Settings) (filter : Filter) : List Call → Session → Prop
  | start : History settings filter [] (fresh settings filter)
  | call {calls : List Call} {c : Call} {s s' : Session} : History settings filter calls s →
    c.Takes s s' → History settings filter (calls ++ [c]) s'

/-- The runs that were captured since the last reset. -/
def captured (calls : List Call) : List ExecutedClass :=
  (calls.rtakeWhile (· ≠ .reset)).flatMap Call.captured

/-- The last run of the class that was captured since the last reset. -/
def lastCapture? (calls : List Call) (className : String) : Option ExecutedClass :=
  lastOf? (captured calls) className

theorem captured_append_reset (calls : List Call) : captured (calls ++ [.reset]) = [] := by
  rw [captured, List.rtakeWhile_concat_neg _ _ _ (by simp)]
  rfl

theorem captured_append {calls : List Call} {c : Call} (h : c ≠ .reset) :
    captured (calls ++ [c]) = captured calls ++ c.captured := by
  rw [captured, List.rtakeWhile_concat_pos _ _ _ (by simpa using h), List.flatMap_append,
    List.flatMap_singleton, ← captured]

/-! ## What a session keeps -/

/-- The session has the snapshots of the last runs of all classes in the list. -/
structure Keeps (settings : Settings) (filter : Filter) (inputs : List ExecutedClass)
    (s : Session) : Prop where
  settings : s.settings = settings
  filter : s.filter = filter
  capturable : ∀ input ∈ inputs, input.snapshot?.isSome
  snapshots : ∀ name, s.snapshots[name]? = (lastOf? inputs name).bind (·.snapshot?)

variable {settings : Settings} {filter : Filter} {inputs order : List ExecutedClass}
  {input : ExecutedClass} {s s' : Session} {calls : List Call}

theorem capture_eq_ok_iff_snapshot? : (capture input).run s = .ok () s' ↔
    ∃ snapshot, input.snapshot? = some snapshot ∧
      s' = { s with snapshots := s.snapshots.insert input.decl.name snapshot } := by
  rw [capture_eq_ok_iff, ExecutedClass.snapshot?]
  cases Snapshot.capture input.methods input.probes with
  | error e => simp [Except.toOption]
  | ok snapshot => simp [Except.toOption]

theorem final_capture_of_none (h : input.snapshot? = none) : (capture input).final s = s := by
  unfold capture
  rw [Update.final, EStateM.run_bind]
  rw [ExecutedClass.snapshot?] at h
  cases hcapture : Snapshot.capture input.methods input.probes with
  | error e => rfl
  | ok snapshot =>
    rw [hcapture] at h
    cases h

theorem keeps_fresh (settings : Settings) (filter : Filter) :
    Keeps settings filter [] (fresh settings filter) where
  settings := rfl
  filter := rfl
  capturable := by simp
  snapshots name := by simp [fresh]

theorem Keeps.run_capture (h : Keeps settings filter inputs s)
    (hrun : (capture input).run s = .ok () s') :
    Keeps settings filter (inputs ++ [input]) s' := by
  obtain ⟨snapshot, hsnapshot, rfl⟩ := capture_eq_ok_iff_snapshot?.mp hrun
  refine ⟨h.settings, h.filter, fun other hother ↦ ?_, fun name ↦ ?_⟩
  · rcases List.mem_append.mp hother with hother | hother
    · exact h.capturable other hother
    · rw [List.mem_singleton.mp hother, hsnapshot]
      rfl
  · rw [lastOf?_append_singleton, Std.ExtTreeMap.getElem?_insert, h.snapshots]
    simp only [Std.LawfulEqCmp.compare_eq_iff_eq]
    split
    · exact hsnapshot.symm
    · rfl

theorem Keeps.run_captureAll (h : Keeps settings filter inputs s)
    (hrun : (captureAll order).run s = .ok () s') :
    Keeps settings filter (inputs ++ order) s' := by
  induction order generalizing s inputs with
  | nil =>
    cases hrun
    rwa [List.append_nil]
  | cons input order ih =>
    change (capture input >>= fun _ ↦ captureAll order).run s = _ at hrun
    obtain ⟨⟨⟩, t, hinput, hrest⟩ := Update.run_bind_eq_ok_iff.mp hrun
    have hkept := ih (h.run_capture hinput) hrest
    rwa [List.append_assoc] at hkept

theorem Keeps.of_perm (hkeeps : Keeps settings filter (inputs ++ order) s)
    {batch : List ExecutedClass} (hperm : order.Perm batch)
    (hdistinct : (batch.map (·.decl.name)).Nodup) :
    Keeps settings filter (inputs ++ batch) s where
  settings := hkeeps.settings
  filter := hkeeps.filter
  capturable other hother := hkeeps.capturable other ((hperm.append_left inputs).mem_iff.mpr hother)
  snapshots name := by
    rw [hkeeps.snapshots, lastOf?_append, lastOf?_append, lastOf?_perm hperm hdistinct]

/-- One call: it writes the registers of the classes that it captures, or clears all. -/
theorem Keeps.takes {c : Call} (h : Keeps settings filter (captured calls) s)
    (htakes : c.Takes s s') : Keeps settings filter (captured (calls ++ [c])) s' := by
  cases htakes with
  | @capture input =>
    rw [captured_append (by simp), Call.captured]
    cases hsnapshot : input.snapshot? with
    | none =>
      rw [final_capture_of_none hsnapshot]
      simpa using h
    | some snapshot =>
      have hrun : ∃ s', (Session.capture input).run s = .ok () s' :=
        ⟨_, capture_eq_ok_iff_snapshot?.mpr ⟨snapshot, hsnapshot, rfl⟩⟩
      obtain ⟨s', hrun⟩ := hrun
      rw [Update.final, hrun]
      exact h.run_capture hrun
  | captureAll hdistinct hperm hrun =>
    rw [captured_append (by simp)]
    exact (h.run_captureAll hrun).of_perm hperm hdistinct
  | analyze =>
    rw [captured_append (by simp), Call.captured, List.append_nil]
    exact h
  | analyzeAll =>
    rw [captured_append (by simp), Call.captured, List.append_nil]
    exact h
  | reset =>
    rw [captured_append_reset]
    exact ⟨h.settings, h.filter, by simp, fun name ↦ by simp [Session.reset]⟩

theorem History.keeps (h : History settings filter calls s) :
    Keeps settings filter (captured calls) s := by
  induction h with
  | start => exact keeps_fresh settings filter
  | call _ htakes ih => exact ih.takes htakes

/-! ## What an analysis sees -/

theorem analyze_congr {t : Session} (hfilter : s.filter = t.filter)
    (hprevious : s.previous? input.decl.name = t.previous? input.decl.name) :
    s.analyze input = t.analyze input := by
  rw [analyze_eq, analyze_eq, hfilter, hprevious]

theorem Keeps.previous?_eq (h : Keeps settings filter inputs s) (name : String) :
    s.previous? name =
      if settings.merge then (lastOf? inputs name).bind (·.snapshot?) else none := by
  rw [previous?, h.settings, h.snapshots]

theorem Keeps.isCaptured_iff (h : Keeps settings filter inputs s) {name : String} :
    s.isCaptured name = true ↔ name ∈ inputs.map (·.decl.name) := by
  rw [isCaptured, Std.ExtTreeMap.contains_eq_isSome_getElem?, h.snapshots, ← isSome_lastOf?_iff]
  cases hlast : lastOf? inputs name with
  | none => simp
  | some input => simpa using h.capturable input (mem_of_lastOf? hlast).1

theorem Keeps.size_eq (h : Keeps settings filter inputs s) :
    s.size = (inputs.map (·.decl.name)).toFinset.card := by
  have hkeys : s.snapshots.keys.toFinset = (inputs.map (·.decl.name)).toFinset := by
    ext name
    rw [List.mem_toFinset, List.mem_toFinset, ← h.isCaptured_iff, Std.ExtTreeMap.mem_keys,
      isCaptured, Std.ExtTreeMap.contains_iff_mem]
  rw [← hkeys, List.toFinset_card_of_nodup Std.ExtTreeMap.nodup_keys, Std.ExtTreeMap.length_keys]
  rfl

/-- An analysis is that of a session with only the last run of the class. -/
theorem Keeps.analyze_eq_of_last (h : Keeps settings filter inputs s) {last : ExecutedClass}
    (hlast : lastOf? inputs input.decl.name = some last) :
    ∃ t, (capture last).run (fresh settings filter) = .ok () t ∧
      s.analyze input = t.analyze input := by
  obtain ⟨hmem, hname⟩ := mem_of_lastOf? hlast
  obtain ⟨snapshot, hsnapshot⟩ := Option.isSome_iff_exists.mp (h.capturable last hmem)
  have hrun : ∃ t, (capture last).run (fresh settings filter) = .ok () t :=
    ⟨_, capture_eq_ok_iff_snapshot?.mpr ⟨snapshot, hsnapshot, rfl⟩⟩
  obtain ⟨t, hrun⟩ := hrun
  have ht : Keeps settings filter [last] t := (keeps_fresh settings filter).run_capture hrun
  refine ⟨t, hrun, analyze_congr (h.filter.trans ht.filter.symm) ?_⟩
  have hone : lastOf? [last] input.decl.name = some last :=
    (lastOf?_append_singleton [] last _).trans (if_pos hname)
  rw [h.previous?_eq, ht.previous?_eq, hlast, hone]

/-- Nothing is seen of other classes, and nothing at all without merging. -/
theorem Keeps.analyze_eq_fresh (h : Keeps settings filter inputs s)
    (hnone : lastOf? inputs input.decl.name = none ∨ settings.merge = false) :
    s.analyze input = (fresh settings filter).analyze input := by
  have hfresh := keeps_fresh settings filter
  refine analyze_congr (h.filter.trans hfresh.filter.symm) ?_
  rw [h.previous?_eq, hfresh.previous?_eq]
  rcases hnone with hlast | hmerge
  · rw [hlast, lastOf?_nil]
  · rw [hmerge]
    rfl

/-- A call writes the registers of the classes that it captures only. -/
theorem Keeps.analyze_takes {c : Call} (h : Keeps settings filter (captured calls) s)
    (htakes : c.Takes s s') (hreset : c ≠ .reset)
    (hother : ∀ x ∈ c.captured, x.decl.name ≠ input.decl.name) :
    s'.analyze input = s.analyze input := by
  have h' := h.takes htakes
  rw [captured_append hreset] at h'
  refine analyze_congr (h'.filter.trans h.filter.symm) ?_
  have hnone : lastOf? c.captured input.decl.name = none := by
    rw [← Option.not_isSome_iff_eq_none, isSome_lastOf?_iff, List.mem_map]
    rintro ⟨x, hx, hxname⟩
    exact hother x hx hxname
  rw [h'.previous?_eq, h.previous?_eq, lastOf?_append, hnone, Option.none_or]

theorem analyzeAll_eq_ok_iff {inputs : List ExecutedClass} {analyses : List Analysis} :
    s.analyzeAll inputs = .ok analyses ↔
      List.Forall₂ (fun input a ↦ s.analyze input = .ok a) inputs analyses :=
  mapM_eq_ok_iff

/-- The classes of a batch may be analysed in any order; each has the result of its place. -/
theorem exists_analyzeAll_of_perm {inputs : List ExecutedClass} {analyses : List Analysis}
    (h : s.analyzeAll inputs = .ok analyses) {order : List (ExecutedClass × Nat)}
    (hperm : order.Perm inputs.zipIdx) :
    ∃ results, order.mapM (fun x ↦ (s.analyze x.1).map (·, x.2)) = .ok results ∧
      results.Perm analyses.zipIdx := by
  refine exists_mapM_of_perm hperm (mapM_eq_ok_iff.mpr ?_)
  refine (forall₂_zipIdx (analyzeAll_eq_ok_iff.mp h) 0).imp ?_
  rintro ⟨input, i⟩ ⟨a, j⟩ ⟨ha, rfl⟩
  change (s.analyze input).map (·, i) = _
  rw [ha]
  rfl

/-- The session answers as one register for each class name that the captures among `calls`
wrote. -/
structure IsRegister (settings : Settings) (filter : Filter) (calls : List Call)
    (s : Session) : Prop where
  unwritten : ∀ input, lastCapture? calls input.decl.name = none ∨ settings.merge = false →
    s.analyze input = (fresh settings filter).analyze input
  written : ∀ input last, lastCapture? calls input.decl.name = some last →
    ∃ t, (capture last).run (fresh settings filter) = .ok () t ∧
      s.analyze input = t.analyze input
  /-- A call that does not capture the class leaves its register alone, unless it is a reset. -/
  others : ∀ input c s', Call.Takes c s s' → c ≠ .reset →
    (∀ x ∈ c.captured, x.decl.name ≠ input.decl.name) → s'.analyze input = s.analyze input
  isCaptured : ∀ name, s.isCaptured name = true ↔ name ∈ (captured calls).map (·.decl.name)
  size : s.size = ((captured calls).map (·.decl.name)).toFinset.card
  batch : ∀ inputs analyses, s.analyzeAll inputs = .ok analyses ↔
    List.Forall₂ (fun input a ↦ s.analyze input = .ok a) inputs analyses
  /-- The order in which the classes of a batch are analysed does not matter. -/
  anyOrder : ∀ inputs analyses, ∀ order : List (ExecutedClass × Nat),
    s.analyzeAll inputs = .ok analyses → order.Perm inputs.zipIdx →
      ∃ results, order.mapM (fun x ↦ (s.analyze x.1).map (·, x.2)) = .ok results ∧
        results.Perm analyses.zipIdx

theorem isRegister_of_history (h : History settings filter calls s) :
    IsRegister settings filter calls s where
  unwritten _ hnone := h.keeps.analyze_eq_fresh hnone
  written _ _ hlast := h.keeps.analyze_eq_of_last hlast
  others _ _ _ htakes hreset hother := h.keeps.analyze_takes htakes hreset hother
  isCaptured _ := h.keeps.isCaptured_iff
  size := h.keeps.size_eq
  batch _ _ := analyzeAll_eq_ok_iff
  anyOrder _ _ _ hall hperm := exists_analyzeAll_of_perm hall hperm

def visit (className : String) (fired : Bool) : ExecutedClass where
  decl := { name := className }
  methods := [{ decl := { access := ⟨1⟩, name := "f", desc := "()V" }
                events := [.instruction ⟨0⟩ (some "return"), .probe 0 0, .endMethod] }]
  probes := some #[fired]

/-- A class that cannot be captured: its probe belongs to no instruction. -/
def stray (className : String) : ExecutedClass where
  decl := { name := className }
  methods := [{ decl := { access := ⟨1⟩, name := "f", desc := "()V" }
                events := [.probe 0 0, .endMethod] }]
  probes := none

/-- A batch in another order than it was given, and then a capture that fails. -/
theorem isRegister_of_history_batch :
    let calls := [Call.capture (visit "C" true), .reset,
      .captureAll [visit "A" true, visit "B" false], .capture (stray "A")]
    ∃ s t, History {} (.chain (Settings.filters {}).filters) calls s ∧
      (capture (visit "A" true)).run (fresh {} (.chain (Settings.filters {}).filters)) =
        .ok () t ∧
      s.analyze (visit "A" false) = t.analyze (visit "A" false) ∧ s.size = 2 := by
  intro calls
  let filter := Filter.chain (Settings.filters {}).filters
  have hfirst : History {} filter [.capture (visit "C" true), .reset] _ :=
    (History.start.call .capture).call .reset
  obtain ⟨s₁, hrun⟩ := Update.exists_run_of_answer
    (u := captureAll [visit "B" false, visit "A" true])
    (s := ((capture (visit "C" true)).final (fresh {} filter)).reset) (a := ()) (by decide +kernel)
  have hperm : [visit "B" false, visit "A" true].Perm [visit "A" true, visit "B" false] :=
    .swap _ _ _
  have hcalls : History {} filter calls _ :=
    (hfirst.call (.captureAll (by decide) hperm hrun)).call .capture
  have hregister := isRegister_of_history hcalls
  obtain ⟨t, ht, hanalyze⟩ := hregister.written (visit "A" false) (visit "A" true)
    (by decide +kernel)
  exact ⟨_, t, hcalls, ht, hanalyze, hregister.size.trans (by decide +kernel)⟩

end Session

end ProbeCoverage
