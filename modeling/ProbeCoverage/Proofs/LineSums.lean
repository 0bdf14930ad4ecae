import ProbeCoverage.Proofs.BranchSet
import ProbeCoverage.Proofs.ReportSums

/-!
# Lines as sums over their instructions

A table of lines holds what each instruction adds to its line. So the lines and the instructions
without a line add up to all instructions; a line is as covered as its instructions are, and its
status shows what any counter that was added to it shows.
-/

namespace ProbeCoverage

def Node.lineReport (n : Node) : LineReport := ⟨n.instructionCounter, n.branchCounter⟩

/-! ## Statuses -/

namespace Status

variable (s t u : Status)

theorem combine_assoc : (s.combine t).combine u = s.combine (t.combine u) := by
  cases s <;> cases t <;> cases u <;> rfl

theorem combine_left_comm : s.combine (t.combine u) = t.combine (s.combine u) := by
  cases s <;> cases t <;> cases u <;> rfl

@[simp] theorem hasMissed_of (a b : Bool) : (of a b).hasMissed = a := by
  cases a <;> cases b <;> rfl

@[simp] theorem hasCovered_of (a b : Bool) : (of a b).hasCovered = b := by
  cases a <;> cases b <;> rfl

end Status

theorem Counter.status_add (c d : Counter) : (c + d).status = c.status.combine d.status := by
  have hpos : ∀ a b : Nat, decide (0 < a + b) = (decide (0 < a) || decide (0 < b)) := by
    intro a b
    rw [← Bool.decide_or]
    exact decide_eq_decide.mpr Nat.add_pos_iff_pos_or_pos
  rw [status, missed_add, covered_add, hpos, hpos]
  simp [Status.combine, status]

namespace LineReport

theorem status_add (r s : LineReport) : (r + s).status = r.status.combine s.status := by
  simp only [status, instructions_add, branches_add, Counter.status_add, Status.combine_assoc]
  rw [Status.combine_left_comm s.instructions.status]

/-- The status of a line shows what the counters of its instructions show. -/
theorem status_sum (l : List Node) : ((l.map Node.lineReport).sum).status =
    (l.flatMap fun n ↦ [n.instructionCounter.status, n.branchCounter.status]).foldr
      Status.combine .empty := by
  induction l with
  | nil => rfl
  | cons n l ih =>
    rw [List.map_cons, List.sum_cons, status_add, ih, List.flatMap_cons, List.foldr_append]
    exact Status.combine_assoc _ _ _

end LineReport

/-! ## What lies on a line -/

namespace LineTable

variable (l : List Node) (line : Nat)

theorem lineAt_lines (n : Node) :
    n.totals.lines.lineAt line = if n.line = some line then n.lineReport else 0 := by
  cases hline : n.line with
  | none =>
    have hlines : n.totals.lines = 0 := by rw [Node.totals, Totals.ofItem, hline, Option.elim_none]
    rw [hlines, lineAt_zero, if_neg (by simp)]
  | some own =>
    have hlines : n.totals.lines = single own n.lineReport := by
      rw [Node.totals, Totals.ofItem, hline, Option.elim_some, Node.lineReport]
    rw [hlines, single]
    by_cases h : own = line
    · rw [h, lineAt_addLine_self, lineAt_zero, zero_add, if_pos rfl]
    · rw [lineAt_addLine_of_ne h, lineAt_zero, if_neg fun heq ↦ h (Option.some.inj heq)]

theorem lineAt_ofNodes : (ofNodes l).lineAt line =
    ((l.filter (·.line = some line)).map Node.lineReport).sum := by
  rw [ofNodes, lineAt_sum, List.map_map]
  simp only [Function.comp_def, lineAt_lines]
  rw [List.sum_map_ite, List.map_const', List.sum_replicate, nsmul_zero, add_zero]

theorem isSome_get?_lines (n : Node) :
    (n.totals.lines.get? line).isSome = true ↔ n.line = some line := by
  rw [Node.totals, Totals.ofItem]
  cases n.line with
  | none => simp
  | some own =>
    rw [Option.elim_some, single, get?_addLine, get?_zero]
    by_cases h : own = line <;> simp [h]

/-- A line is recorded if an instruction lies on it. -/
theorem isSome_get?_ofNodes :
    ((ofNodes l).get? line).isSome = true ↔ ∃ n ∈ l, n.line = some line := by
  rw [ofNodes]
  induction l with
  | nil => simp
  | cons n l ih =>
    rw [List.map_cons, List.sum_cons, get?_add, Option.isSome_merge, Bool.or_eq_true, ih,
      isSome_get?_lines, List.exists_mem_cons_iff]

theorem ofNodes_append (l l' : List Node) : ofNodes (l ++ l') = ofNodes l + ofNodes l' := by
  rw [ofNodes, List.map_append, List.sum_append, ofNodes, ofNodes]

theorem lineAt_of_get? {t : LineTable} {line : Nat} {r : LineReport} (h : t.get? line = some r) :
    t.lineAt line = r := by
  rw [lineAt, h, Option.getD_some]

theorem map_snd_toList (t : LineTable) :
    t.toList.map Prod.snd = (t.toList.map Prod.fst).map t.lineAt := by
  rw [List.map_map]
  exact List.map_congr_left fun p hp ↦ (lineAt_of_get? (mem_toList_iff.mp hp)).symm

/-- All lines together, with the instructions that lie on no line, add up to all instructions. -/
theorem sum_toList_ofNodes : ((ofNodes l).toList.map Prod.snd).sum +
    ((l.filter (·.line = none)).map Node.lineReport).sum = (l.map Node.lineReport).sum := by
  have hkeys : (((ofNodes l).toList.map Prod.fst).map some).Nodup :=
    List.pairwise_map.mpr ((ofNodes l).nodup_keys.imp fun hne h ↦ hne (Option.some.inj h))
  have hmem : ∀ n ∈ l, decide (¬ n.line = none) = true ↔
      n.line ∈ ((ofNodes l).toList.map Prod.fst).map some := by
    intro n hn
    cases hline : n.line with
    | none => simp
    | some line =>
      obtain ⟨r, hr⟩ := Option.isSome_iff_exists.mp
        ((isSome_get?_ofNodes l line).mpr ⟨n, hn, hline⟩)
      exact iff_of_true (decide_eq_true (Option.some_ne_none line))
        (List.mem_map_of_mem (List.mem_map.mpr ⟨_, mem_toList_iff.mpr hr, rfl⟩))
  have hlines : ((ofNodes l).toList.map Prod.snd).sum =
      ((l.filter (¬ ·.line = none)).map Node.lineReport).sum := by
    rw [map_snd_toList, ← sum_fibers hkeys Node.line Node.lineReport hmem]
    simp only [List.map_map, Function.comp_def, lineAt_ofNodes]
  rw [hlines, add_comm]
  exact List.sum_map_filter_add_sum_map_filter_not _ _ _

end LineTable

/-! ## Lines as items -/

namespace Status

/-- What is not empty counts as one item. -/
theorem of_ne_empty {missed covered : Bool} (h : (missed || covered) = true) :
    (match Status.of missed covered with
      | .empty => ∅
      | .notCovered => Counter.oneMissed
      | .fullyCovered | .partlyCovered => Counter.oneCovered) = Counter.one covered := by
  cases missed <;> cases covered <;> first | rfl | exact absurd h (by decide)

end Status

/-- A line with instructions counts as covered if it has a covered one. -/
theorem LineReport.counter_eq {r : LineReport} (hitems : 0 < r.instructions.items)
    (hcovered : r.branches.covered ≠ 0 → r.instructions.covered ≠ 0) :
    r.counter = Counter.one (r.instructions.covered ≠ 0) := by
  have hstatus : r.status =
      Status.of (0 < r.instructions.missed ∨ 0 < r.branches.missed)
        (0 < r.instructions.covered ∨ 0 < r.branches.covered) := by
    simp [status, Status.combine, Counter.status]
  have hsome : (0 < r.instructions.covered ∨ 0 < r.branches.covered) ↔
      r.instructions.covered ≠ 0 := by
    omega
  have hany : 0 < r.instructions.missed ∨ r.instructions.covered ≠ 0 := by
    rw [Counter.items] at hitems
    omega
  rw [counter, hstatus, decide_eq_decide.mpr hsome]
  exact Status.of_ne_empty (by simpa [or_assoc] using hany.imp_left Or.inl)

theorem Node.isCovered_of_branchCounter {n : Node} (h : n.branchCounter.covered ≠ 0) :
    n.isCovered = true := by
  have hsize : n.covered.size ≠ 0 := by
    intro hzero
    apply h
    rw [branchCounter]
    split
    · rfl
    · simp [hzero]
  obtain ⟨i, hi⟩ := List.exists_mem_of_length_pos (Nat.pos_of_ne_zero hsize)
  exact isCovered_iff.mpr ⟨i, BranchSet.mem_toList.mp hi⟩

namespace LineTable

variable {l : List Node} {line : Nat} {r : LineReport}

theorem instructions_lineAt_ofNodes (l : List Node) (line : Nat) :
    ((ofNodes l).lineAt line).instructions =
      ((l.filter (·.line = some line)).map Node.instructionCounter).sum := by
  rw [lineAt_ofNodes, LineReport.instructions_sum, List.map_map]
  rfl

theorem branches_lineAt_ofNodes (l : List Node) (line : Nat) :
    ((ofNodes l).lineAt line).branches =
      ((l.filter (·.line = some line)).map Node.branchCounter).sum := by
  rw [lineAt_ofNodes, LineReport.branches_sum, List.map_map]
  rfl

theorem instructions_pos_of_ofNodes (h : (ofNodes l).get? line = some r) :
    0 < r.instructions.items := by
  obtain ⟨n, hn, hline⟩ := (isSome_get?_ofNodes l line).mp (Option.isSome_iff_exists.mpr ⟨r, h⟩)
  rw [← lineAt_of_get? h, instructions_lineAt_ofNodes, Node.items_sum_instructionCounter]
  exact List.length_pos_of_mem (List.mem_filter.mpr ⟨hn, decide_eq_true hline⟩)

theorem covered_of_ofNodes (h : (ofNodes l).get? line = some r) :
    r.instructions.covered ≠ 0 ↔ ∃ n ∈ l, n.line = some line ∧ n.isCovered = true := by
  rw [← lineAt_of_get? h, instructions_lineAt_ofNodes,
    Node.covered_sum_instructionCounter_ne_zero_iff]
  simp only [List.mem_filter, decide_eq_true_eq, and_assoc]

theorem counter_of_ofNodes (h : (ofNodes l).get? line = some r) :
    r.counter = Counter.one (r.instructions.covered ≠ 0) := by
  refine LineReport.counter_eq (instructions_pos_of_ofNodes h) fun hbranches ↦
    (covered_of_ofNodes h).mpr ?_
  rw [← lineAt_of_get? h, branches_lineAt_ofNodes, Counter.covered_sum, List.map_map] at hbranches
  by_contra hnone
  refine hbranches (List.sum_eq_zero fun k hk ↦ ?_)
  obtain ⟨n, hn, rfl⟩ := List.mem_map.mp hk
  obtain ⟨hmem, hline⟩ := List.mem_filter.mp hn
  by_contra hcovered
  exact hnone ⟨n, hmem, of_decide_eq_true hline, Node.isCovered_of_branchCounter hcovered⟩

theorem counter_eq_ok_iff {t : LineTable} {c : Counter} :
    t.counter = .ok c ↔ c = (t.toList.map (·.2.counter)).sum ∧ c.Fits := by
  have hsum : t.toList.foldl (fun c p ↦ c + p.2.counter) 0 = (t.toList.map (·.2.counter)).sum := by
    rw [List.sum_eq_foldl, List.foldl_map]
  have hiff : t.counter = .ok c ↔ c = t.toList.foldl (fun c p ↦ c + p.2.counter) 0 ∧
      Counter.Fits (t.toList.foldl (fun c p ↦ c + p.2.counter) 0) :=
    foldlM_eq_ok_iff (fun _ _ _ _ ↦ Counter.add_eq_ok_iff) (fun _ _ ↦ Counter.Fits.of_add)
      Counter.fits_zero
  rw [hsum] at hiff
  refine hiff.trans (and_congr_right fun h ↦ ?_)
  rw [h]

theorem map_counter_ofNodes (l : List Node) : (ofNodes l).toList.map (·.2.counter) =
    (ofNodes l).toList.map fun p ↦ Counter.one (p.2.instructions.covered ≠ 0) :=
  List.map_congr_left fun _ hp ↦ counter_of_ofNodes (mem_toList_iff.mp hp)

theorem sum_instructions_ofNodes (l : List Node) :
    ((ofNodes l).toList.map (·.2.instructions)).sum +
      ((l.filter (·.line = none)).map Node.instructionCounter).sum =
        (l.map Node.instructionCounter).sum := by
  have hsum := congrArg LineReport.instructions (sum_toList_ofNodes l)
  simp only [LineReport.instructions_add, LineReport.instructions_sum, List.map_map] at hsum
  exact hsum

theorem sum_branches_ofNodes (l : List Node) :
    ((ofNodes l).toList.map (·.2.branches)).sum +
      ((l.filter (·.line = none)).map Node.branchCounter).sum =
        (l.map Node.branchCounter).sum := by
  have hsum := congrArg LineReport.branches (sum_toList_ofNodes l)
  simp only [LineReport.branches_add, LineReport.branches_sum, List.map_map] at hsum
  exact hsum

/-- Each line as one item, covered if one of its instructions is. -/
def asItems (t : LineTable) : Counter where
  missed := t.toList.countP (·.2.instructions.covered = 0)
  covered := t.toList.countP (·.2.instructions.covered ≠ 0)

theorem length_toList (t : LineTable) : t.toList.length = t.size := Std.ExtTreeMap.length_toList

theorem items_asItems (t : LineTable) : t.asItems.items = t.size := by
  have hlength := List.length_eq_countP_add_countP (l := t.toList) (·.2.instructions.covered ≠ 0)
  rw [← length_toList, hlength, Nat.add_comm]
  simp [asItems, Counter.items]

theorem size_ofNodes_le (l : List Node) : (ofNodes l).size ≤ l.length := by
  have hsum := congrArg Counter.items (sum_instructions_ofNodes l)
  rw [Counter.items_add, Counter.items_sum, Node.items_sum_instructionCounter,
    Node.items_sum_instructionCounter, List.map_map] at hsum
  have hpos : ((ofNodes l).toList.map fun _ ↦ 1).sum ≤
      ((ofNodes l).toList.map (·.2.instructions.items)).sum :=
    List.sum_le_sum fun p hp ↦ instructions_pos_of_ofNodes (mem_toList_iff.mp hp)
  rw [List.map_const', List.sum_replicate, length_toList] at hpos
  calc (ofNodes l).size = (ofNodes l).size • 1 := (Nat.mul_one _).symm
    _ ≤ ((ofNodes l).toList.map (·.2.instructions.items)).sum := hpos
    _ ≤ l.length := Nat.le_trans (Nat.le_add_right _ _) (Nat.le_of_eq hsum)

/-- If the instructions can be counted, so can their lines. -/
theorem counter_ofNodes (h : ((l.map Node.instructionCounter).sum).Fits) :
    (ofNodes l).counter = .ok (ofNodes l).asItems := by
  rw [← sum_instructions_ofNodes] at h
  have hlines := h.of_add
  -- each line takes an item that one of its instructions has
  have hone : ∀ p ∈ (ofNodes l).toList,
      (Counter.one (p.2.instructions.covered ≠ 0)).missed ≤ p.2.instructions.missed ∧
        (Counter.one (p.2.instructions.covered ≠ 0)).covered ≤ p.2.instructions.covered := by
    intro p hp
    have hpos := instructions_pos_of_ofNodes (mem_toList_iff.mp hp)
    by_cases hzero : p.2.instructions.covered = 0
    · rw [Counter.items, hzero, Nat.add_zero] at hpos
      simp only [hzero, Ne, not_true_eq_false, decide_false]
      exact ⟨hpos, Nat.le_refl 0⟩
    · simp only [hzero, Ne, not_false_eq_true, decide_true]
      exact ⟨Nat.zero_le _, Nat.pos_of_ne_zero hzero⟩
  have hfits : (((ofNodes l).toList.map fun p ↦
      Counter.one (p.2.instructions.covered ≠ 0)).sum).Fits := by
    have hmissed := hlines.missed
    have hcovered := hlines.covered
    rw [Counter.missed_sum, List.map_map] at hmissed
    rw [Counter.covered_sum, List.map_map] at hcovered
    refine ⟨?_, ?_⟩
    · rw [Counter.missed_sum, List.map_map]
      exact Nat.lt_of_le_of_lt (List.sum_le_sum fun p hp ↦ (hone p hp).1) hmissed
    · rw [Counter.covered_sum, List.map_map]
      exact Nat.lt_of_le_of_lt (List.sum_le_sum fun p hp ↦ (hone p hp).2) hcovered
  have hcounter : (ofNodes l).counter = .ok ((ofNodes l).toList.map fun p ↦
      Counter.one (p.2.instructions.covered ≠ 0)).sum :=
    counter_eq_ok_iff.mpr ⟨congrArg List.sum (map_counter_ofNodes l).symm, hfits⟩
  rw [hcounter, Counter.sum_one]
  simp [asItems]

end LineTable

end ProbeCoverage
