import ProbeCoverage.BranchSet.Lemmas
import ProbeCoverage.Node
import Mathlib.Data.List.Basic
import Mathlib.Data.List.Perm.Subperm

/-!
# Members of branch sets

Sets are compared by their members, which are listed in ascending order. A union holds the members
of both sets, and an instruction is covered exactly if one of its branches was taken.
-/

namespace ProbeCoverage

namespace BranchSet

theorem ext_mem {s t : BranchSet} (h : ∀ i, i ∈ s ↔ i ∈ t) : s = t := by
  apply ext
  intro i
  exact Bool.eq_iff_iff.mpr (h i)

@[simp] theorem not_mem_empty (i : Nat) : ¬ i ∈ (∅ : BranchSet) := by
  simp [mem_iff]

@[simp] theorem mem_insert {s : BranchSet} {i j : Nat} : j ∈ s.insert i ↔ j = i ∨ j ∈ s := by
  simp only [mem_iff, contains_insert, Bool.or_eq_true, decide_eq_true_eq]
  exact or_congr eq_comm Iff.rfl

@[simp] theorem mem_union {s t : BranchSet} {i : Nat} : i ∈ s ∪ t ↔ i ∈ s ∨ i ∈ t := by
  simp [mem_iff, contains_union]

theorem isEmpty_eq_false_iff {s : BranchSet} : s.isEmpty = false ↔ ∃ i, i ∈ s := by
  constructor
  · intro h
    by_contra hnone
    have hs : s = ∅ := ext_mem fun i ↦ by
      simpa using fun hi ↦ hnone ⟨i, hi⟩
    subst hs
    exact absurd h (by decide)
  · rintro ⟨i, hi⟩
    have hs : s.insert i = s := ext_mem fun j ↦ by
      simpa using fun hj ↦ hj ▸ hi
    rw [← hs]
    exact isEmpty_insert s i

/-! ## Members in order -/

theorem mem_wordMembers {w : UInt64} {k i : Nat} :
    i ∈ wordMembers w k ↔ i / 64 = k ∧ w.toNat.testBit (i % 64) = true := by
  unfold wordMembers
  split
  next h => simp [h]
  next =>
    simp only [List.mem_map, List.mem_filter, List.mem_range]
    constructor
    · rintro ⟨b, ⟨hb, hbit⟩, rfl⟩
      have hdiv : (64 * k + b) / 64 = k := by omega
      have hmod : (64 * k + b) % 64 = b := by omega
      exact ⟨hdiv, by rwa [hmod]⟩
    · rintro ⟨rfl, hbit⟩
      exact ⟨i % 64, ⟨Nat.mod_lt _ (by decide), hbit⟩, Nat.div_add_mod i 64⟩

theorem mem_toList {s : BranchSet} {i : Nat} : i ∈ s.toList ↔ i ∈ s := by
  simp only [toList, List.mem_flatMap, List.mem_zipIdx_iff_getElem?, mem_wordMembers, mem_iff,
    contains, Prod.exists, Array.getElem?_toList]
  constructor
  · rintro ⟨w, k, hw, rfl, hbit⟩
    rw [hw]
    exact hbit
  · intro h
    split at h
    next w hw => exact ⟨w, i / 64, hw, rfl, h⟩
    next => cases h

theorem pairwise_wordMembers (w : UInt64) (k : Nat) : (wordMembers w k).Pairwise (· < ·) := by
  unfold wordMembers
  split
  · exact .nil
  · rw [List.pairwise_map]
    exact (List.pairwise_lt_range.filter _).imp fun h ↦ Nat.add_lt_add_left h _

/-- Members are listed once each, in ascending order. -/
theorem pairwise_toList (s : BranchSet) : s.toList.Pairwise (· < ·) := by
  rw [toList, List.pairwise_flatMap]
  refine ⟨fun p _ ↦ pairwise_wordMembers p.1 p.2, ?_⟩
  have hpositions : (s.words.toList.zipIdx.map Prod.snd).Pairwise (· < ·) := by
    rw [List.zipIdx_map_snd]
    exact List.pairwise_lt_range' 1
  refine (List.pairwise_map.mp hpositions).imp fun {p q} hpq i hi j hj ↦ ?_
  have hik := (mem_wordMembers.mp hi).1
  have hjk := (mem_wordMembers.mp hj).1
  omega

theorem size_le_length {s : BranchSet} {l : List Nat} (h : ∀ i ∈ s, i ∈ l) : s.size ≤ l.length := by
  have hnodup : s.toList.Nodup := s.pairwise_toList.imp Nat.ne_of_lt
  exact (hnodup.subperm fun i hi ↦ h i (mem_toList.mp hi)).length_le

theorem size_le_iff {s : BranchSet} {k : Nat} :
    s.size ≤ k ↔ ∀ is : List Nat, is.Nodup → (∀ i ∈ is, i ∈ s) → is.length ≤ k := by
  constructor
  · intro h is hnodup his
    exact Nat.le_trans (hnodup.subperm fun i hi ↦ mem_toList.mpr (his i hi)).length_le h
  · intro h
    exact h s.toList (s.pairwise_toList.imp Nat.ne_of_lt) fun i hi ↦ mem_toList.mp hi

theorem size_le_of_subset {s t : BranchSet} (h : ∀ i, i ∈ s → i ∈ t) : s.size ≤ t.size :=
  size_le_length fun i hi ↦ mem_toList.mpr (h i hi)

theorem size_le_of_forall_le {s : BranchSet} {n : Nat} (h : ∀ i ∈ s, i ≤ n) : s.size ≤ n + 1 := by
  have hle : s.size ≤ (List.range (n + 1)).length :=
    size_le_length fun i hi ↦ List.mem_range.mpr (Nat.lt_succ_of_le (h i hi))
  rwa [List.length_range] at hle

theorem size_union_le (s t : BranchSet) : (s ∪ t).size ≤ s.size + t.size := by
  have hle : (s ∪ t).size ≤ (s.toList ++ t.toList).length :=
    size_le_length fun i hi ↦ by
      rwa [List.mem_append, mem_toList, mem_toList, ← mem_union]
  rwa [List.length_append] at hle

end BranchSet

namespace Node

theorem isCovered_iff {n : Node} : n.isCovered = true ↔ ∃ i, i ∈ n.covered := by
  rw [isCovered, Bool.not_eq_true', BranchSet.isEmpty_eq_false_iff]

/-- The instruction without its coverage. -/
def outline (n : Node) : Node := { n with covered := ∅ }

theorem ext_outline {n m : Node} (h : n.outline = m.outline)
    (hcov : ∀ i, i ∈ n.covered ↔ i ∈ m.covered) : n = m := by
  have hc : n.covered = m.covered := BranchSet.ext_mem hcov
  cases n
  cases m
  simp only [outline, mk.injEq] at h hc ⊢
  grind

@[simp] theorem outline_cover (n : Node) (b : Nat) : (n.cover b).outline = n.outline := rfl

@[simp] theorem mem_covered_cover {n : Node} {b i : Nat} :
    i ∈ (n.cover b).covered ↔ i = b ∨ i ∈ n.covered := by
  simp [cover]

end Node

end ProbeCoverage
