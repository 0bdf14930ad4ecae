import ProbeCoverage.Proofs.BranchCounts
import ProbeCoverage.Proofs.Complexity
import ProbeCoverage.Proofs.LineSums

/-!
# Counts that cannot overflow

A count goes wrong only if a sum does not fit. What a stream and the decisions on it can ask for is
bounded by their length: there are no more instructions than events, and no more branches than
events and named targets. So for streams and decisions that are not too long, no sum on the way from
the events to the report overflows.
-/

namespace ProbeCoverage

/-! ## Counting what fits -/

namespace Counter

variable {c : Counter}

theorem fits_of_items_lt (h : c.items < countBound) : c.Fits := by
  rw [items] at h
  exact ⟨by omega, by omega⟩

theorem total_of_items_lt (h : c.items < countBound) : c.total = .ok c.items :=
  total_eq_ok_iff.mpr ⟨rfl, h⟩

end Counter

namespace MethodReport

variable {r : MethodReport} {i b : Counter} {line : Option Nat}

theorem decisionCounter_of_items_lt (h : b.items < countBound) :
    decisionCounter b = .ok b.decision := by
  rw [decisionCounter, Counter.total_of_items_lt h]
  change (if 1 < b.items then _ else _) = _
  rw [Counter.decision]
  split <;> rfl

theorem incrementLine_of_fits {t : LineTable}
    (h : (t + line.elim 0 (LineTable.single · ⟨i, b⟩)).Fits) :
    incrementLine t i b line = .ok (t + line.elim 0 (LineTable.single · ⟨i, b⟩)) := by
  cases line with
  | none => exact congrArg Except.ok (add_zero t).symm
  | some line =>
    refine LineTable.increment_eq_ok_iff.mpr ⟨(t.addLine_eq_add line _).symm, ?_⟩
    have hline := h line
    rwa [Option.elim_some, ← LineTable.addLine_eq_add, LineTable.lineAt_addLine_self] at hline

theorem increment_of_fits (h : (r.totals + .ofItem i b line).Fits) (hb : b.items < countBound) :
    r.increment i b line = .ok (r.plus (.ofItem i b line)) := by
  simp only [increment, bind_eq_ok_iff, Counter.add_eq_ok_iff]
  exact ⟨_, ⟨rfl, h.instructions⟩, _, ⟨rfl, h.branches⟩, _, incrementLine_of_fits h.lines, _,
    decisionCounter_of_items_lt hb, _, ⟨rfl, h.complexity⟩, rfl⟩

theorem incrementMethod_of_fits
    (h : (r.totals + .ofMethod (r.instructions.covered ≠ 0)).Fits) :
    r.incrementMethod = .ok (r.plus (.ofMethod (r.instructions.covered ≠ 0))) := by
  simp only [incrementMethod, bind_eq_ok_iff, Counter.add_eq_ok_iff]
  refine ⟨_, ⟨rfl, h.methods⟩, _, ⟨rfl, h.complexity⟩, congrArg Except.ok ?_⟩
  simp [plus, Totals.ofMethod]

end MethodReport

theorem Node.foldlM_increment_of_fits {l : List Node} {r : MethodReport}
    (h : (r.totals + (l.map Node.totals).sum).Fits)
    (hitems : ∀ n ∈ l, n.branchCounter.items < countBound) :
    l.foldlM (fun r n ↦ r.increment n.instructionCounter n.branchCounter n.line) r =
      .ok (r.plus (l.map Node.totals).sum) := by
  induction l generalizing r with
  | nil => exact congrArg Except.ok r.plus_zero.symm
  | cons n l ih =>
    rw [List.map_cons, List.sum_cons, ← add_assoc] at h
    have hn := MethodReport.increment_of_fits h.of_add (hitems n List.mem_cons_self)
    rw [List.foldlM_cons, hn]
    refine (ih (r := r.plus n.totals) h fun m hm ↦ hitems m (List.mem_cons_of_mem n hm)).trans ?_
    rw [MethodReport.plus_plus, List.map_cons, List.sum_cons]

namespace Selection

variable {g : FlowGraph} {s : Selection}

/-- A new report is made if its sums fit, and the branches of each instruction. -/
theorem tally_ne_overflow (name desc : String) (signature : Option String)
    (h : (s.totals g + .ofMethod ((s.totals g).instructions.covered ≠ 0)).Fits)
    (hitems : ∀ n ∈ s.reported g, n.branchCounter.items < countBound) :
    s.tally g { name, desc, signature } ≠ .error .overflow := by
  have hsum : ({ name, desc, signature } : MethodReport).totals + s.totals g = s.totals g :=
    zero_add _
  have hcovered : (({ name, desc, signature } : MethodReport).plus
      (s.totals g)).instructions.covered = (s.totals g).instructions.covered := Nat.zero_add _
  have hfold := Node.foldlM_increment_of_fits (l := s.reported g)
    (r := { name, desc, signature }) (hsum ▸ h.of_add) hitems
  have hmethod := MethodReport.incrementMethod_of_fits
    (r := ({ name, desc, signature } : MethodReport).plus (s.totals g))
    (by rw [MethodReport.totals_plus, hsum, hcovered]; exact h)
  rw [tally, hfold]
  change MethodReport.incrementMethod _ ≠ _
  rw [totals] at hmethod
  rw [hmethod]
  intro h
  cases h

variable {ds : List Decision}

theorem items_branches_totals (g : FlowGraph) (s : Selection) :
    (s.totals g).branches.items = ((s.reported g).map (·.branchCounter.items)).sum := by
  rw [branches_totals, Counter.items_sum, List.map_map]
  rfl

theorem items_complexity_totals_le (g : FlowGraph) (s : Selection) :
    (s.totals g).complexity.items ≤ (s.totals g).branches.items := by
  have hsum := Node.sum_items_decision (s.reported g)
  rw [complexity_totals, Counter.items_sum, List.map_map, items_branches_totals]
  change ((s.reported g).map (·.branchCounter.decision.items)).sum ≤ _
  omega

end Selection

/-- A line has no more items than there are. -/
theorem LineTable.items_lineAt_ofNodes_le (l : List Node) (line : Nat) :
    ((ofNodes l).lineAt line).instructions.items ≤ ((l.map Node.instructionCounter).sum).items ∧
      ((ofNodes l).lineAt line).branches.items ≤ ((l.map Node.branchCounter).sum).items := by
  rw [instructions_lineAt_ofNodes, branches_lineAt_ofNodes]
  simp only [Counter.items_sum, List.map_map]
  exact ⟨sum_map_filter_le _ _ _, sum_map_filter_le _ _ _⟩

namespace Selection

variable {g : FlowGraph} {s : Selection} {ds : List Decision}

theorem fits_totals {k : Nat} (hk : k < countBound - 1) (hinstructions : (s.reported g).length ≤ k)
    (hbranches : (s.totals g).branches.items ≤ k) (covered : Bool) :
    (s.totals g + .ofMethod covered).Fits := by
  have hcomplexity := items_complexity_totals_le g s
  have hone := Counter.items_one covered
  have hitems : (s.totals g).instructions.items ≤ k := by
    rwa [instructions_totals, Node.items_sum_instructionCounter]
  refine ⟨Counter.fits_of_items_lt ?_, Counter.fits_of_items_lt ?_, Counter.fits_of_items_lt ?_,
    Counter.fits_of_items_lt ?_, fun line ↦ ?_⟩
  · rw [Totals.instructions_add, Counter.items_add]
    change _ + 0 < _
    omega
  · rw [Totals.branches_add, Counter.items_add]
    change _ + 0 < _
    omega
  · rw [Totals.complexity_add, Counter.items_add]
    change _ + (Counter.one covered).items < _
    omega
  · rw [Totals.methods_add, methods_totals, zero_add]
    change (Counter.one covered).items < _
    omega
  · have hline := LineTable.items_lineAt_ofNodes_le (s.reported g) line
    rw [← instructions_totals, ← branches_totals, ← lines_totals] at hline
    have hlines : (s.totals g + .ofMethod covered).lines = (s.totals g).lines := add_zero _
    rw [hlines]
    exact ⟨Counter.fits_of_items_lt (by omega), Counter.fits_of_items_lt (by omega)⟩

end Selection

/-- Each counter that the report shows has a total, and so have its lines. -/
structure MethodReport.HasTotals (r : MethodReport) : Prop where
  instructions : r.instructions.total = .ok r.instructions.items
  branches : r.branches.total = .ok r.branches.items
  complexity : r.complexity.total = .ok r.complexity.items
  methods : r.methods.total = .ok r.methods.items
  lines : ∀ line l, r.lines.get? line = some l →
    l.instructions.total = .ok l.instructions.items ∧ l.branches.total = .ok l.branches.items
  lineCounter : ∃ c, r.lineCounter = .ok c ∧ c.total = .ok c.items

namespace Stream

theorem offence?_ne_overflow (probes : Option (Array Bool)) (before : List Event) (e : Event) :
    offence? probes before e ≠ some .overflow := by
  have hbranch : ∀ branch, branchOffence? before branch ≠ some .overflow := by
    intro branch
    rw [branchOffence?]
    split
    · simp
    · split <;> simp
  have hprobe : ∀ probe, unreadable? probes probe ≠ some .overflow := by
    intro probe
    unfold unreadable?
    split
    · simp
    · split <;> simp
  rw [offence?]
  split
  · simp
  · cases e with
    | instruction handle signature =>
      rw [liveOffence?]
      split <;> simp
    | jump target branch => exact hbranch branch
    | probe probe branch =>
      rw [liveOffence?]
      cases hfirst : branchOffence? before branch with
      | none => exact hprobe probe
      | some f =>
        rw [← hfirst, Option.or_of_isSome (by rw [hfirst]; rfl)]
        exact hbranch branch
    | _ => simp [liveOffence?]

theorem overflow_not_mem_offences (probes : Option (Array Bool)) (es : List Event) :
    Fault.overflow ∉ offences probes es := by
  have hevents : ∀ (es before : List Event), Fault.overflow ∉ offencesAfter probes before es := by
    intro es
    induction es with
    | nil => exact fun _ ↦ List.not_mem_nil
    | cons e es ih =>
      intro before hmem
      rcases List.mem_append.mp hmem with hmem | hmem
      · exact offence?_ne_overflow probes before e (Option.mem_toList.mp hmem)
      · exact ih _ hmem
  intro hmem
  rcases List.mem_append.mp hmem with hmem | hmem
  · exact hevents es [] hmem
  · rcases List.mem_append.mp hmem with hmem | hmem
    · split at hmem <;> simp at hmem
    · obtain ⟨j, -, hj⟩ := List.mem_filterMap.mp hmem
      rw [unresolved?] at hj
      split at hj <;> cases hj

end Stream

theorem FlowGraph.ofEvents_ne_overflow (probes : Option (Array Bool)) {es : List Event}
    (h : es.length < countBound) : FlowGraph.ofEvents probes es ≠ .error .overflow := by
  have hspec := FlowGraph.ofEvents_offences probes h
  cases hfirst : (Stream.offences probes es).head? with
  | some f =>
    rw [hfirst] at hspec
    rw [hspec]
    rintro ⟨⟩
    exact Stream.overflow_not_mem_offences probes es (List.mem_of_head? hfirst)
  | none =>
    rw [hfirst] at hspec
    obtain ⟨g, hg⟩ := hspec
    rw [hg]
    intro h
    cases h

namespace Selection

variable {g : FlowGraph} {s : Selection} {name desc : String} {signature : Option String}
  {r : MethodReport}

theorem hasTotals_of_tally {k : Nat} (hk : k < countBound - 1)
    (hinstructions : (s.reported g).length ≤ k) (hbranches : (s.totals g).branches.items ≤ k)
    (h : s.tally g { name, desc, signature } = .ok r) : r.HasTotals := by
  have hcomplexity := items_complexity_totals_le g s
  have hitems : ((s.reported g).map Node.instructionCounter).sum.items ≤ k := by
    rwa [Node.items_sum_instructionCounter]
  refine ⟨Counter.total_of_items_lt ?_, Counter.total_of_items_lt ?_, Counter.total_of_items_lt ?_,
    Counter.total_of_items_lt ?_, fun line l hl ↦ ?_, ?_⟩
  · rw [instructions_of_tally h]
    omega
  · rw [branches_of_tally h, ← branches_totals]
    omega
  · rw [complexity_of_tally h, ← complexity_totals, Counter.items_add, Counter.items_one]
    omega
  · rw [methods_of_tally h, Counter.items_one]
    decide
  · have hline := LineTable.items_lineAt_ofNodes_le (s.reported g) line
    rw [← lines_of_tally h, LineTable.lineAt_of_get? hl, ← branches_totals] at hline
    exact ⟨Counter.total_of_items_lt (by omega), Counter.total_of_items_lt (by omega)⟩
  · have hcounter := LineTable.counter_ofNodes (l := s.reported g)
      (Counter.fits_of_items_lt (Nat.lt_of_le_of_lt hitems (by omega)))
    have hsize := LineTable.size_ofNodes_le (s.reported g)
    rw [← lines_of_tally h] at hcounter hsize
    refine ⟨_, hcounter, Counter.total_of_items_lt ?_⟩
    rw [LineTable.items_asItems]
    omega

end Selection

/-- With fewer events and named targets than a count can hold, less one for the method, neither the
graph nor the report overflows. -/
theorem FlowGraph.hasTotals_of_length_lt (probes : Option (Array Bool)) {es : List Event}
    {ds : List Decision} (h : es.length + Selection.namedTargets ds < countBound - 1)
    (name desc : String) (signature : Option String) :
    FlowGraph.ofEvents probes es ≠ .error .overflow ∧
      ∀ g, FlowGraph.ofEvents probes es = .ok g →
        ∃ r, (Selection.ofDecisions g ds).tally g { name, desc, signature } = .ok r ∧
          r.HasTotals := by
  refine ⟨FlowGraph.ofEvents_ne_overflow probes (by omega), fun g hg ↦ ?_⟩
  have hsize := FlowGraph.size_ofEvents_le hg
  have htotal := FlowGraph.branchTotal_ofEvents_le hg
  have hlength := Selection.length_reported_le g (Selection.ofDecisions g ds)
  have hsum := Selection.sum_branchCounter_le (fun _ _ ↦ FlowGraph.branchesWithin_ofEvents hg)
    (fun _ _ ↦ g.lt_size_of_id? hg) ds
  have hbranches : ((Selection.ofDecisions g ds).totals g).branches.items ≤
      es.length + Selection.namedTargets ds := by
    rw [Selection.items_branches_totals]
    omega
  have hitems : ∀ n ∈ (Selection.ofDecisions g ds).reported g,
      n.branchCounter.items < countBound := fun n hn ↦ by
    have hle := List.le_sum_of_mem (List.mem_map_of_mem (f := (·.branchCounter.items)) hn)
    omega
  have htally := Selection.tally_eq_of_ne_overflow (Selection.tally_ne_overflow name desc signature
    (Selection.fits_totals h (by omega) hbranches _) hitems)
  exact ⟨_, htally, Selection.hasTotals_of_tally h (by omega) hbranches htally⟩

/-- A merge of two classes, and two replacements for one source, one target of which is unknown. -/
def rewired : List Decision :=
  [.merge ⟨2⟩ ⟨0⟩, .retarget ⟨1⟩ [⟨0⟩], .merge ⟨3⟩ ⟨2⟩, .retarget ⟨1⟩ [⟨2⟩, ⟨9⟩, ⟨4⟩]]

theorem FlowGraph.hasTotals_of_length_lt_branching :
    branching.length + Selection.namedTargets rewired < countBound - 1 ∧
      ∃ g r, FlowGraph.ofEvents (some #[true, false]) branching = .ok g ∧
        (Selection.ofDecisions g rewired).tally g
          { name := "run", desc := "()V", signature := none } = .ok r ∧ r.HasTotals := by
  have hlength : branching.length + Selection.namedTargets rewired < countBound - 1 := by decide
  obtain ⟨g, hg⟩ : ∃ g, FlowGraph.ofEvents (some #[true, false]) branching = .ok g :=
    exists_eq_ok (by decide +kernel)
  obtain ⟨r, hr, htotals⟩ := (FlowGraph.hasTotals_of_length_lt (some #[true, false]) hlength "run"
    "()V" none).2 g hg
  exact ⟨hlength, g, r, hg, hr, htotals⟩

end ProbeCoverage
