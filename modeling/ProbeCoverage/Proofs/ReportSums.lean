import Mathlib.Algebra.Order.BigOperators.Group.List
import ProbeCoverage.Proofs.Totals

/-!
# Reports as sums over instructions

Each counter of a new report is a sum over the instructions that are reported, and so is each line.
-/

namespace ProbeCoverage

/-- Summed up key by key, each element counts once if its key is there. -/
theorem sum_fibers {α κ M : Type} [DecidableEq κ] [AddCommMonoid M] {keys : List κ}
    (hkeys : keys.Nodup) (key : α → κ) (f : α → M) {p : α → Bool} {l : List α}
    (hp : ∀ a ∈ l, p a = true ↔ key a ∈ keys) :
    (keys.map fun k ↦ ((l.filter (key · = k)).map f).sum).sum = ((l.filter p).map f).sum := by
  induction l with
  | nil => simp
  | cons a l ih =>
    have hcons : ∀ k, (((a :: l).filter (key · = k)).map f).sum =
        (if k = key a then f a else 0) + ((l.filter (key · = k)).map f).sum := by
      intro k
      by_cases hk : k = key a
      · subst hk
        simp
      · simp [hk, Ne.symm hk]
    have hone : (keys.map fun k ↦ if k = key a then f a else 0).sum = if p a then f a else 0 := by
      rw [List.sum_map_eq_nsmul_single (key a) _ fun k hk _ ↦ if_neg hk, if_pos rfl]
      simp only [hkeys.count, ← hp a List.mem_cons_self]
      split
      · exact one_nsmul (f a)
      · exact zero_nsmul (f a)
    simp only [hcons]
    rw [List.sum_map_add, ih fun b hb ↦ hp b (List.mem_cons_of_mem a hb), hone]
    by_cases ha : p a = true <;> simp [ha]

theorem sum_map_filter_le {α : Type} (p : α → Bool) (f : α → Nat) (l : List α) :
    ((l.filter p).map f).sum ≤ (l.map f).sum :=
  (List.filter_sublist.map f).sum_le_sum fun _ _ ↦ Nat.zero_le _

namespace Counter

theorem missed_sum (cs : List Counter) : cs.sum.missed = (cs.map (·.missed)).sum :=
  map_list_sum (⟨⟨missed, missed_zero⟩, missed_add⟩ : Counter →+ Nat) cs

theorem covered_sum (cs : List Counter) : cs.sum.covered = (cs.map (·.covered)).sum :=
  map_list_sum (⟨⟨covered, covered_zero⟩, covered_add⟩ : Counter →+ Nat) cs

theorem items_sum (cs : List Counter) : cs.sum.items = (cs.map items).sum :=
  map_list_sum (⟨⟨items, items_zero⟩, items_add⟩ : Counter →+ Nat) cs

section

variable {α : Type} (p : α → Bool) (l : List α)

theorem sum_one : (l.map fun a ↦ one (p a)).sum = ⟨l.countP (!p ·), l.countP p⟩ := by
  induction l with
  | nil => rfl
  | cons a l ih =>
    rw [List.map_cons, List.sum_cons, ih, List.countP_cons, List.countP_cons]
    cases p a <;> ext <;> simp [one, oneMissed, oneCovered, Nat.add_comm]

theorem items_sum_one : ((l.map fun a ↦ one (p a)).sum).items = l.length := by
  have hlength := List.length_eq_countP_add_countP p (l := l)
  simp only [sum_one, items, Bool.not_eq_true, Bool.decide_eq_false] at hlength ⊢
  omega

theorem covered_sum_one : ((l.map fun a ↦ one (p a)).sum).covered = l.countP p := by
  rw [sum_one]

end

end Counter

theorem LineTable.lineAt_sum (ts : List LineTable) (line : Nat) :
    ts.sum.lineAt line = (ts.map (·.lineAt line)).sum :=
  map_list_sum
    (⟨⟨(·.lineAt line), lineAt_zero⟩, fun _ _ ↦ lineAt_add⟩ : LineTable →+ LineReport) ts

namespace LineReport

theorem instructions_sum (rs : List LineReport) :
    rs.sum.instructions = (rs.map (·.instructions)).sum :=
  map_list_sum (⟨⟨instructions, instructions_zero⟩, instructions_add⟩ : LineReport →+ Counter) rs

theorem branches_sum (rs : List LineReport) : rs.sum.branches = (rs.map (·.branches)).sum :=
  map_list_sum (⟨⟨branches, branches_zero⟩, branches_add⟩ : LineReport →+ Counter) rs

end LineReport

namespace Totals

variable (ts : List Totals)

theorem instructions_sum : ts.sum.instructions = (ts.map (·.instructions)).sum :=
  map_list_sum (⟨⟨instructions, instructions_zero⟩, fun _ _ ↦ instructions_add⟩ :
    Totals →+ Counter) ts

theorem branches_sum : ts.sum.branches = (ts.map (·.branches)).sum :=
  map_list_sum (⟨⟨branches, branches_zero⟩, fun _ _ ↦ branches_add⟩ : Totals →+ Counter) ts

theorem complexity_sum : ts.sum.complexity = (ts.map (·.complexity)).sum :=
  map_list_sum (⟨⟨complexity, complexity_zero⟩, fun _ _ ↦ complexity_add⟩ : Totals →+ Counter) ts

theorem methods_sum : ts.sum.methods = (ts.map (·.methods)).sum :=
  map_list_sum (⟨⟨methods, methods_zero⟩, fun _ _ ↦ methods_add⟩ : Totals →+ Counter) ts

theorem lines_sum : ts.sum.lines = (ts.map (·.lines)).sum :=
  map_list_sum (⟨⟨lines, lines_zero⟩, fun _ _ ↦ lines_add⟩ : Totals →+ LineTable) ts

end Totals

/-! ## The report on one method -/

namespace Node

theorem items_sum_instructionCounter (l : List Node) :
    ((l.map instructionCounter).sum).items = l.length := Counter.items_sum_one isCovered l

theorem covered_sum_instructionCounter_ne_zero_iff {l : List Node} :
    ((l.map instructionCounter).sum).covered ≠ 0 ↔ ∃ n ∈ l, n.isCovered = true := by
  rw [← Nat.pos_iff_ne_zero, ← List.countP_pos_iff]
  exact iff_of_eq (congrArg (0 < ·) (Counter.covered_sum_one isCovered l))

end Node

/-- The lines of these instructions. -/
def LineTable.ofNodes (l : List Node) : LineTable := (l.map (·.totals.lines)).sum

namespace Selection

variable {g : FlowGraph} {s : Selection} {name desc : String} {signature : Option String}
  {r : MethodReport}

theorem instructions_totals (g : FlowGraph) (s : Selection) :
    (s.totals g).instructions = ((s.reported g).map Node.instructionCounter).sum := by
  rw [totals, Totals.instructions_sum, List.map_map]
  rfl

theorem branches_totals (g : FlowGraph) (s : Selection) :
    (s.totals g).branches = ((s.reported g).map Node.branchCounter).sum := by
  rw [totals, Totals.branches_sum, List.map_map]
  rfl

theorem complexity_totals (g : FlowGraph) (s : Selection) :
    (s.totals g).complexity = ((s.reported g).map (·.branchCounter.decision)).sum := by
  rw [totals, Totals.complexity_sum, List.map_map]
  rfl

theorem methods_totals (g : FlowGraph) (s : Selection) : (s.totals g).methods = 0 := by
  rw [totals, Totals.methods_sum, List.map_map]
  refine List.sum_eq_zero fun c hc ↦ ?_
  obtain ⟨n, -, rfl⟩ := List.mem_map.mp hc
  rfl

theorem lines_totals (g : FlowGraph) (s : Selection) :
    (s.totals g).lines = .ofNodes (s.reported g) := by
  rw [totals, Totals.lines_sum, List.map_map]
  rfl

/-- The counters of a new report are the sums of what each instruction adds, and the method itself
adds one. -/
theorem totals_of_tally (h : s.tally g { name, desc, signature } = .ok r) :
    r.totals = s.totals g + .ofMethod (∃ n ∈ s.reported g, n.isCovered = true) := by
  have hzero : ({ name, desc, signature } : MethodReport).totals = 0 := rfl
  have hcovered : (({ name, desc, signature } : MethodReport).plus
      (s.totals g)).instructions.covered = (s.totals g).instructions.covered := Nat.zero_add _
  rw [eq_plus_of_tally h, MethodReport.totals_plus, MethodReport.totals_plus, hzero, zero_add,
    hcovered, instructions_totals]
  simp only [Node.covered_sum_instructionCounter_ne_zero_iff]

theorem instructions_of_tally (h : s.tally g { name, desc, signature } = .ok r) :
    r.instructions = ((s.reported g).map Node.instructionCounter).sum := by
  have hsum := congrArg Totals.instructions (totals_of_tally h)
  rw [Totals.instructions_add, instructions_totals] at hsum
  exact hsum.trans (add_zero _)

theorem branches_of_tally (h : s.tally g { name, desc, signature } = .ok r) :
    r.branches = ((s.reported g).map Node.branchCounter).sum := by
  have hsum := congrArg Totals.branches (totals_of_tally h)
  rw [Totals.branches_add, branches_totals] at hsum
  exact hsum.trans (add_zero _)

theorem complexity_of_tally (h : s.tally g { name, desc, signature } = .ok r) :
    r.complexity = ((s.reported g).map (·.branchCounter.decision)).sum +
      Counter.one (∃ n ∈ s.reported g, n.isCovered = true) := by
  have hsum := congrArg Totals.complexity (totals_of_tally h)
  rw [Totals.complexity_add, complexity_totals] at hsum
  exact hsum

theorem methods_of_tally (h : s.tally g { name, desc, signature } = .ok r) :
    r.methods = Counter.one (∃ n ∈ s.reported g, n.isCovered = true) := by
  have hsum := congrArg Totals.methods (totals_of_tally h)
  rw [Totals.methods_add, methods_totals, zero_add] at hsum
  exact hsum

theorem lines_of_tally (h : s.tally g { name, desc, signature } = .ok r) :
    r.lines = .ofNodes (s.reported g) := by
  have hsum := congrArg Totals.lines (totals_of_tally h)
  rw [Totals.lines_add, lines_totals] at hsum
  exact hsum.trans (add_zero _)

end Selection

end ProbeCoverage
