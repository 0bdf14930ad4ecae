import ProbeCoverage.Proofs.MergeClasses
import ProbeCoverage.Proofs.MergedCoverage
import ProbeCoverage.Proofs.ReportSums

/-!
# Cyclomatic complexity

Every decision of a method adds one item less than it has branches to the complexity, and the method
itself adds one item. None of the truncated subtractions on the way cuts anything off, also when
more branches were taken than the decision has.
-/

namespace ProbeCoverage

namespace Counter

variable {c : Counter}

theorem items_decision (h : 1 < c.items) : c.decision.items + 1 = c.items := by
  rw [decision, if_pos h]
  simp only [items] at h ⊢
  omega

theorem missed_decision_eq_zero_iff (h : 1 < c.items) : c.decision.missed = 0 ↔ c.missed = 0 := by
  rw [decision, if_pos h]
  simp only [items] at h ⊢
  omega

end Counter

namespace Node

variable {n : Node}

theorem one_lt_items_branchCounter (h : n.branchCounter ≠ ∅) : 1 < n.branchCounter.items := by
  by_cases hbranches : n.branches < 2
  · rw [branchCounter, if_pos hbranches] at h
    exact absurd rfl h
  · rw [branchCounter, if_neg hbranches]
    simp only [Counter.items]
    omega

theorem items_decision (n : Node) : n.branchCounter.decision.items +
    (if n.branchCounter ≠ ∅ then 1 else 0) = n.branchCounter.items := by
  by_cases h : n.branchCounter = ∅
  · rw [h]
    rfl
  · rw [if_pos h, Counter.items_decision (one_lt_items_branchCounter h)]

theorem missed_decision_eq_zero_iff (n : Node) :
    n.branchCounter.decision.missed = 0 ↔ n.branchCounter.missed = 0 := by
  by_cases h : n.branchCounter = ∅
  · rw [h]
    exact iff_of_true rfl rfl
  · exact Counter.missed_decision_eq_zero_iff (one_lt_items_branchCounter h)

/-- The instructions that decide: those with a branch counter. -/
def deciding (l : List Node) : List Node := l.filter (·.branchCounter ≠ ∅)

theorem deciding_cons (n : Node) (l : List Node) : deciding (n :: l) =
    if n.branchCounter ≠ ∅ then n :: deciding l else deciding l := by
  rw [deciding, List.filter_cons]
  simp only [decide_eq_true_eq]
  rfl

variable (l : List Node)

theorem sum_items_decision :
    (l.map (·.branchCounter.decision.items)).sum + (deciding l).length =
      (l.map (·.branchCounter.items)).sum := by
  induction l with
  | nil => rfl
  | cons n l ih =>
    have hn := n.items_decision
    rw [deciding_cons, List.map_cons, List.sum_cons, List.map_cons, List.sum_cons]
    by_cases h : n.branchCounter ≠ ∅
    · rw [if_pos h] at hn ⊢
      rw [List.length_cons]
      omega
    · rw [if_neg h] at hn ⊢
      omega

theorem sum_covered_decision :
    (l.map (·.branchCounter.decision.covered)).sum =
      ((deciding l).map (·.branchCounter.covered - 1)).sum := by
  induction l with
  | nil => rfl
  | cons n l ih =>
    rw [deciding_cons, List.map_cons, List.sum_cons, n.covered_decision, ih]
    split
    · rw [List.map_cons, List.sum_cons]
    next h =>
      rw [not_not.mp h]
      exact Nat.zero_add _

theorem sum_missed_decision_eq_zero_iff :
    (l.map (·.branchCounter.decision.missed)).sum = 0 ↔
      ∀ n ∈ deciding l, n.branchCounter.missed = 0 := by
  simp only [List.sum_eq_zero_iff, List.forall_mem_map, missed_decision_eq_zero_iff, deciding,
    List.mem_filter, decide_eq_true_eq, and_imp]
  refine forall₂_congr fun n _ ↦ ⟨fun h _ ↦ h, fun h ↦ ?_⟩
  by_cases hempty : n.branchCounter = ∅
  · rw [hempty]
    rfl
  · exact h hempty

end Node

/-- The complexity that is reported is that of the decisions: it counts one item for each branch of
a decision that goes beyond its first, and one for the method. It has nothing missed exactly if the
method was executed, and every branch of every decision. -/
theorem Selection.complexity_of_decisions (g : FlowGraph) (ds : List Decision)
    (name desc : String) (signature : Option String)
    (hfits : (Selection.ofDecisions g ds).tally g { name, desc, signature } ≠ .error .overflow) :
    let reported := (Selection.ofDecisions g ds).reported g
    let deciding := Node.deciding reported
    ∃ r, (Selection.ofDecisions g ds).tally g { name, desc, signature } = .ok r ∧
      r.complexity.items + deciding.length = r.branches.items + 1 ∧
      r.complexity.covered = (deciding.map (·.branchCounter.covered - 1)).sum +
        (if ∃ n ∈ reported, n.isCovered = true then 1 else 0) ∧
      (r.complexity.missed = 0 ↔ (∃ n ∈ reported, n.isCovered = true) ∧
        ∀ n ∈ deciding, n.branchCounter.missed = 0) := by
  intro reported deciding
  have htally := tally_eq_of_ne_overflow hfits
  refine ⟨_, htally, ?_⟩
  have hmethod : ∀ b : Bool, (Counter.one b).items = 1 ∧
      (Counter.one b).covered = (if b then 1 else 0) ∧ ((Counter.one b).missed = 0 ↔ b = true) := by
    decide
  obtain ⟨hitems, hcovered, hmissed⟩ := hmethod (∃ n ∈ reported, n.isCovered = true)
  rw [complexity_of_tally htally, branches_of_tally htally]
  refine ⟨?_, ?_, ?_⟩
  · have hsum := Node.sum_items_decision reported
    rw [Counter.items_add, Counter.items_sum, Counter.items_sum, List.map_map, List.map_map, hitems]
    change (reported.map (·.branchCounter.decision.items)).sum + 1 +
        (Node.deciding reported).length =
      (reported.map (·.branchCounter.items)).sum + 1
    omega
  · rw [Counter.covered_add, Counter.covered_sum, List.map_map, hcovered]
    simp only [decide_eq_true_eq]
    exact congrArg (· + _) (Node.sum_covered_decision reported)
  · rw [Counter.missed_add, Counter.missed_sum, List.map_map, Nat.add_eq_zero_iff, hmissed,
      decide_eq_true_eq, and_comm]
    exact and_congr_right' (Node.sum_missed_decision_eq_zero_iff reported)

/-- A decision between three branches that is executed in all of them, and one that is not. -/
def twoDecisions : List Event :=
  [.instruction ⟨0⟩ none, .probe 0 0, .probe 1 1, .probe 2 2, .noSuccessor, .instruction ⟨1⟩ none,
    .probe 3 0, .probe 4 1, .noSuccessor, .instruction ⟨2⟩ none, .probe 5 0, .probe 6 1,
    .noSuccessor, .endMethod]

/-- Merged, the first two instructions have two branches, and three of them are covered. -/
theorem Selection.complexity_of_decisions_merged :
    ∃ g r, FlowGraph.ofEvents (some #[true, true, true, false, false, false, true])
        twoDecisions = .ok g ∧
      (Selection.ofDecisions g [.merge ⟨0⟩ ⟨1⟩]).tally g
        { name := "run", desc := "()V", signature := none } = .ok r ∧
      r.branches = ⟨1, 4⟩ ∧ r.complexity = ⟨1, 3⟩ ∧
      r.complexity.items + (Node.deciding
        ((Selection.ofDecisions g [.merge ⟨0⟩ ⟨1⟩]).reported g)).length = r.branches.items + 1 := by
  obtain ⟨g, hg⟩ : ∃ g, FlowGraph.ofEvents
      (some #[true, true, true, false, false, false, true]) twoDecisions = .ok g :=
    exists_eq_ok (by decide +kernel)
  have hall : ((FlowGraph.ofEvents (some #[true, true, true, false, false, false, true])
      twoDecisions).bind fun g ↦ ((Selection.ofDecisions g [.merge ⟨0⟩ ⟨1⟩]).tally g
        { name := "run", desc := "()V", signature := none }).map fun r ↦
          (r.branches, r.complexity)) = .ok (⟨1, 4⟩, ⟨1, 3⟩) := by decide +kernel
  rw [hg] at hall
  have hfits : (Selection.ofDecisions g [.merge ⟨0⟩ ⟨1⟩]).tally g
      { name := "run", desc := "()V", signature := none } ≠ .error .overflow := by
    intro hoverflow
    rw [Except.bind, hoverflow] at hall
    cases hall
  obtain ⟨r, hr, hitems, -⟩ :=
    Selection.complexity_of_decisions g [.merge ⟨0⟩ ⟨1⟩] "run" "()V" none hfits
  rw [Except.bind, hr] at hall
  obtain ⟨hbranches, hcomplexity⟩ := Prod.mk.inj (Except.ok.inj hall)
  exact ⟨g, r, hg, hr, hbranches, hcomplexity, hitems⟩

end ProbeCoverage
