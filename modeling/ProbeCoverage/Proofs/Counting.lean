import Mathlib.Algebra.GroupWithZero.Nat
import Mathlib.Algebra.Order.BigOperators.Group.List
import Mathlib.Algebra.Order.Group.Nat
import ProbeCoverage.Report.Class
import ProbeCoverage.Selection

/-!
# Counting fails by overflow only

A report is made by adding up counters. This can go wrong in one way: a count does not fit. As each
counter holds at most the items that were counted, it then takes more items than a count can hold.
-/

namespace ProbeCoverage

/-- Counts at most `n` items: the result has the property `Q`, or these were too many. -/
def Counts {α : Type} (n : Nat) (Q : α → Prop) : Except Fault α → Prop
  | .ok a => Q a
  | .error e => e = .overflow ∧ countBound ≤ n

namespace Counts

variable {α β : Type} {n m : Nat} {Q : α → Prop} {x : Except Fault α}

theorem ok {a : α} (h : Q a) : Counts n Q (.ok a) := h

theorem mono {R : α → Prop} (h : Counts n Q x) (hle : n ≤ m) (hQ : ∀ a, Q a → R a) :
    Counts m R x := by
  cases x with
  | ok a => exact hQ a h
  | error e => exact ⟨h.1, Nat.le_trans h.2 hle⟩

theorem bind {R : β → Prop} {f : α → Except Fault β} (hx : Counts n Q x)
    (hf : ∀ a, Q a → Counts n R (f a)) : Counts n R (x >>= f) := by
  cases x with
  | ok a => exact hf a hx
  | error e => exact hx

/-- Adding to a result item by item, where each has a weight of its own. -/
theorem foldlM {f : β → α → Except Fault β} {R : Nat → β → Prop} {w : α → Nat}
    (hf : ∀ n b a, R n b → Counts (n + w a) (R (n + w a)) (f b a)) (l : List α) {b : β}
    (hb : R n b) : Counts (n + (l.map w).sum) (R (n + (l.map w).sum)) (l.foldlM f b) := by
  induction l generalizing n b with
  | nil => exact hb
  | cons a l ih =>
    rw [List.foldlM_cons, List.map_cons, List.sum_cons, ← Nat.add_assoc]
    apply Counts.bind
    · exact (hf n b a hb).mono (Nat.le_add_right _ _) fun _ h ↦ h
    · intro b' hb'
      exact ih hb'

end Counts

theorem counts_addBelow {n a b : Nat} (h : a + b ≤ n) :
    Counts n (· = a + b) (addBelow countBound a b) := by
  unfold addBelow
  split
  next => exact Counts.ok rfl
  next hle => exact ⟨rfl, Nat.le_trans (Nat.le_of_not_lt hle) h⟩

/-! ## Counters -/

namespace Counter

def items (c : Counter) : Nat := c.missed + c.covered

theorem items_one (covered : Bool) : (one covered).items = 1 := by
  cases covered <;> rfl

theorem counts_total {c : Counter} {n : Nat} (h : c.items ≤ n) : Counts n (· = c.items) c.total :=
  counts_addBelow h

theorem counts_add {c d : Counter} {n k : Nat} (hc : c.items ≤ n) (hd : d.items ≤ k) :
    Counts (n + k) (·.items ≤ n + k) (c.add d) := by
  unfold items at hc hd ⊢
  apply Counts.bind (counts_addBelow (by omega))
  intro m hm
  apply Counts.bind (counts_addBelow (by omega))
  intro l hl
  apply Counts.ok
  dsimp only
  omega

end Counter

/-! ## Lines -/

structure LineReport.Within (r : LineReport) (n : Nat) : Prop where
  instructions : r.instructions.items ≤ n
  branches : r.branches.items ≤ n

theorem LineReport.Within.mono {r : LineReport} {n m : Nat} (h : r.Within n) (hle : n ≤ m) :
    r.Within m :=
  ⟨Nat.le_trans h.instructions hle, Nat.le_trans h.branches hle⟩

theorem LineReport.counts_increment {r : LineReport} {i b : Counter} {n k : Nat} (h : r.Within n)
    (hi : i.items ≤ k) (hb : b.items ≤ k) :
    Counts (n + k) (·.Within (n + k)) (r.increment i b) := by
  apply Counts.bind (Counter.counts_add h.instructions hi)
  intro i' hi'
  apply Counts.bind (Counter.counts_add h.branches hb)
  intro b' hb'
  exact Counts.ok ⟨hi', hb'⟩

namespace LineTable

def lineAt (t : LineTable) (line : Nat) : LineReport := (t.get? line).getD {}

def Within (t : LineTable) (n : Nat) : Prop := ∀ line, (t.lineAt line).Within n

theorem within_empty (n : Nat) : Within ∅ n := by
  intro line
  have hline : get? ∅ line = none := Std.ExtTreeMap.getElem?_empty
  rw [lineAt, hline, Option.getD_none]
  exact ⟨Nat.zero_le n, Nat.zero_le n⟩

theorem nodup_keys (t : LineTable) : (t.toList.map Prod.fst).Nodup := by
  rw [toList, Std.ExtTreeMap.map_fst_toList_eq_keys]
  exact Std.ExtTreeMap.nodup_keys

theorem mem_toList_iff {t : LineTable} {line : Nat} {r : LineReport} :
    (line, r) ∈ t.toList ↔ t.get? line = some r :=
  Std.ExtTreeMap.mem_toList_iff_getElem?_eq_some

theorem exists_within (t : LineTable) : ∃ n, t.Within n := by
  refine ⟨(t.toList.map fun p ↦ p.2.instructions.items + p.2.branches.items).sum, fun line ↦ ?_⟩
  unfold lineAt
  cases hline : t.get? line with
  | none => exact ⟨Nat.zero_le _, Nat.zero_le _⟩
  | some r =>
    have hle := List.le_sum_of_mem (List.mem_map_of_mem
      (f := fun p : Nat × LineReport ↦ p.2.instructions.items + p.2.branches.items)
      (mem_toList_iff.mpr hline))
    exact ⟨Nat.le_trans (Nat.le_add_right _ _) hle, Nat.le_trans (Nat.le_add_left _ _) hle⟩

theorem counts_increment {t : LineTable} {line n k : Nat} {i b : Counter}
    (h : (t.lineAt line).Within n) (hi : i.items ≤ k) (hb : b.items ≤ k) :
    Counts (n + k)
      (fun t' ↦ (t'.lineAt line).Within (n + k) ∧ ∀ l, l ≠ line → t'.lineAt l = t.lineAt l)
      (t.increment line i b) := by
  apply Counts.bind (LineReport.counts_increment h hi hb)
  intro r hr
  refine Counts.ok ⟨?_, fun l hl ↦ ?_⟩
  · simpa [lineAt, get?] using hr
  · simp [lineAt, get?, Std.ExtTreeMap.getElem?_insert, Ne.symm hl]

theorem counts_incrementAll {l : List (Nat × LineReport)} {t : LineTable} {n k : Nat}
    (hkeys : (l.map Prod.fst).Nodup) (hl : ∀ p ∈ l, p.2.Within k) (ht : t.Within (n + k))
    (hold : ∀ p ∈ l, (t.lineAt p.1).Within n) :
    Counts (n + k) (·.Within (n + k))
      (l.foldlM (fun t (line, r) ↦ t.increment line r.instructions r.branches) t) := by
  induction l generalizing t with
  | nil => exact Counts.ok ht
  | cons p l ih =>
    obtain ⟨line, r⟩ := p
    rw [List.map_cons, List.nodup_cons] at hkeys
    obtain ⟨hi, hb⟩ := hl (line, r) List.mem_cons_self
    rw [List.foldlM_cons]
    apply Counts.bind (counts_increment (hold (line, r) List.mem_cons_self) hi hb)
    rintro t' ⟨hline, hother⟩
    apply ih hkeys.2 (fun q hq ↦ hl q (List.mem_cons_of_mem _ hq))
    · intro l'
      by_cases hl' : l' = line
      · rw [hl']
        exact hline
      · rw [hother l' hl']
        exact ht l'
    · intro q hq
      have hne : q.1 ≠ line := fun heq ↦ hkeys.1 (List.mem_map.mpr ⟨q, hq, heq⟩)
      rw [hother q.1 hne]
      exact hold q (List.mem_cons_of_mem _ hq)

theorem counts_merge {t u : LineTable} {n k : Nat} (ht : t.Within n) (hu : u.Within k) :
    Counts (n + k) (·.Within (n + k)) (t.merge u) := by
  apply counts_incrementAll
  · exact u.nodup_keys
  · rintro ⟨line, r⟩ hp
    have hline : u.lineAt line = r := by
      rw [lineAt, mem_toList_iff.mp hp, Option.getD_some]
    rw [← hline]
    exact hu line
  · intro line
    exact (ht line).mono (Nat.le_add_right n k)
  · intro p _
    exact ht p.1

end LineTable

/-! ## Methods -/

structure MethodReport.Within (r : MethodReport) (n : Nat) : Prop where
  instructions : r.instructions.items ≤ n
  branches : r.branches.items ≤ n
  complexity : r.complexity.items ≤ n
  methods : r.methods.items ≤ n
  lines : r.lines.Within n

namespace MethodReport

theorem counts_incrementLine {t : LineTable} {n k : Nat} {i b : Counter} (h : t.Within n)
    (hi : i.items ≤ k) (hb : b.items ≤ k) (line : Option Nat) :
    Counts (n + k) (·.Within (n + k)) (incrementLine t i b line) := by
  have hmono : ∀ l, (t.lineAt l).Within (n + k) := fun l ↦ (h l).mono (Nat.le_add_right n k)
  cases line with
  | none => exact Counts.ok hmono
  | some line =>
    apply (LineTable.counts_increment (h line) hi hb).mono (Nat.le_refl _)
    rintro t' ⟨hline, hother⟩ l
    by_cases hl : l = line
    · rw [hl]
      exact hline
    · rw [hother l hl]
      exact hmono l

theorem counts_decisionCounter {b : Counter} {n : Nat} (h : b.items ≤ n) :
    Counts n (·.items ≤ b.items) (decisionCounter b) := by
  apply Counts.bind (Counter.counts_total h)
  intro total htotal
  dsimp only
  split
  · apply Counts.ok
    unfold Counter.items at htotal ⊢
    dsimp only
    omega
  · exact Counts.ok (Nat.zero_le _)

theorem counts_increment {r : MethodReport} {n k : Nat} {i b : Counter} (h : r.Within n)
    (hk : i.items + b.items ≤ k) (line : Option Nat) :
    Counts (n + k) (·.Within (n + k)) (r.increment i b line) := by
  have hi : i.items ≤ k := by omega
  have hb : b.items ≤ k := by omega
  apply Counts.bind (Counter.counts_add h.instructions hi)
  intro i' hi'
  apply Counts.bind (Counter.counts_add h.branches hb)
  intro b' hb'
  apply Counts.bind (counts_incrementLine h.lines hi hb line)
  intro t ht
  apply Counts.bind (counts_decisionCounter (Nat.le_trans hb (Nat.le_add_left k n)))
  intro c hc
  apply Counts.bind (Counter.counts_add h.complexity (Nat.le_trans hc hb))
  intro c' hc'
  exact Counts.ok ⟨hi', hb', hc', Nat.le_trans h.methods (Nat.le_add_right n k), ht⟩

theorem counts_incrementMethod {r : MethodReport} {n : Nat} (h : r.Within n) :
    Counts (n + 1) (·.Within (n + 1)) r.incrementMethod := by
  have hone := Nat.le_of_eq (Counter.items_one (r.instructions.covered ≠ 0))
  apply Counts.bind (Counter.counts_add h.methods hone)
  intro m hm
  apply Counts.bind (Counter.counts_add h.complexity hone)
  intro c hc
  exact Counts.ok ⟨Nat.le_trans h.instructions (Nat.le_add_right n 1),
    Nat.le_trans h.branches (Nat.le_add_right n 1), hc, hm,
    fun line ↦ (h.lines line).mono (Nat.le_add_right n 1)⟩

theorem counts_containsCode {r : MethodReport} {n : Nat} (h : r.Within n) :
    Counts n (fun _ ↦ True) r.containsCode := by
  apply Counts.bind (Counter.counts_total h.instructions)
  intro total _
  exact Counts.ok trivial

theorem within_empty (name desc : String) (signature : Option String) (n : Nat) :
    Within { name, desc, signature } n :=
  ⟨Nat.zero_le n, Nat.zero_le n, Nat.zero_le n, Nat.zero_le n, LineTable.within_empty n⟩

end MethodReport

def Node.items (n : Node) : Nat := n.instructionCounter.items + n.branchCounter.items

/-- The items that a selection leaves to be counted, the method being one of them. -/
def Selection.items (g : FlowGraph) (s : Selection) : Nat := ((s.reported g).map Node.items).sum + 1

theorem Selection.counts_tally {r : MethodReport} {n : Nat} (h : r.Within n) (g : FlowGraph)
    (s : Selection) : Counts (n + s.items g) (·.Within (n + s.items g)) (s.tally g r) := by
  rw [Selection.items, ← Nat.add_assoc]
  have hfold := Counts.foldlM (w := Node.items) (R := fun n r ↦ MethodReport.Within r n)
    (fun n r node hr ↦ r.counts_increment hr (Nat.le_refl _) node.line) (s.reported g) h
  apply Counts.bind (hfold.mono (Nat.le_add_right _ 1) fun _ hr ↦ hr)
  intro r' hr'
  exact MethodReport.counts_incrementMethod hr'

/-! ## Classes -/

structure ClassReport.Within (r : ClassReport) (n : Nat) : Prop where
  instructions : r.instructions.items ≤ n
  branches : r.branches.items ≤ n
  complexity : r.complexity.items ≤ n
  methods : r.methodCounter.items ≤ n
  lines : r.lines.Within n

theorem ClassReport.Within.mono {r : ClassReport} {n m : Nat} (h : r.Within n) (hle : n ≤ m) :
    r.Within m :=
  ⟨Nat.le_trans h.instructions hle, Nat.le_trans h.branches hle, Nat.le_trans h.complexity hle,
    Nat.le_trans h.methods hle, fun line ↦ (h.lines line).mono hle⟩

theorem ClassReport.within_ofClass (c : ClassDecl) (n : Nat) : (ClassReport.ofClass c).Within n :=
  ⟨Nat.zero_le n, Nat.zero_le n, Nat.zero_le n, Nat.zero_le n, LineTable.within_empty n⟩

theorem ClassReport.exists_within (r : ClassReport) : ∃ n, r.Within n := by
  obtain ⟨n, hn⟩ := r.lines.exists_within
  refine ⟨r.instructions.items + r.branches.items + r.complexity.items + r.methodCounter.items + n,
    by omega, by omega, by omega, by omega, fun line ↦ (hn line).mono (by omega)⟩

theorem ClassReport.counts_addMethod {r : ClassReport} {m : MethodReport} {n k : Nat}
    (h : r.Within n) (hm : m.Within k) :
    Counts (n + k) (·.Within (n + k)) (r.addMethod m) := by
  apply Counts.bind (Counter.counts_add h.instructions hm.instructions)
  intro i hi
  apply Counts.bind (Counter.counts_add h.branches hm.branches)
  intro b hb
  apply Counts.bind (Counter.counts_add h.complexity hm.complexity)
  intro c hc
  apply Counts.bind (Counter.counts_add h.methods hm.methods)
  intro l hl
  apply Counts.bind (LineTable.counts_merge h.lines hm.lines)
  intro t ht
  exact Counts.ok ⟨hi, hb, hc, hl, ht⟩

end ProbeCoverage
