import Mathlib.Data.List.Enum
import Mathlib.Data.Nat.Bitwise
import ProbeCoverage.PackedSet
import ProbeCoverage.Proofs.BranchSet
import ProbeCoverage.Proofs.CoverageOrder

/-!
# Members of packed sets

What each call does to the members, and what it tells of that. Without the zero words at its end a
packed set is the branch set of the same members, so packed sets are equal if their members are.
-/

namespace ProbeCoverage

namespace BranchSet

variable {w : UInt64} {k i j : Nat}

theorem and_bit_ne_zero_iff : w &&& bit i ≠ 0 ↔ w.toNat.testBit (i % 64) = true := by
  rw [Ne, ← UInt64.toNat_inj, UInt64.toNat_and, toNat_bit, Nat.one_shiftLeft,
    Nat.and_two_pow, UInt64.toNat_zero]
  cases w.toNat.testBit (i % 64) <;> simp

theorem shiftRight_eq_zero_iff (hk : k < 64) :
    w >>> k.toUInt64 = 0 ↔ ∀ j, k ≤ j → w.toNat.testBit j = false := by
  have hmod : k % 18446744073709551616 % 64 = k := by omega
  rw [← UInt64.toNat_inj, UInt64.toNat_shiftRight, UInt64.toNat_zero]
  simp only [Nat.toUInt64_eq, UInt64.toNat_ofNat', hmod]
  constructor
  · intro h j hj
    have hbit := congrArg (Nat.testBit · (j - k)) h
    simpa [Nat.testBit_shiftRight, Nat.add_sub_cancel' hj] using hbit
  · intro h
    apply Nat.eq_of_testBit_eq
    intro j
    rw [Nat.testBit_shiftRight, h _ (Nat.le_add_right k j), Nat.zero_testBit]

/-- A word changes exactly if it gets a bit that it did not have. -/
theorem ne_or_iff {v : UInt64} :
    v ≠ v ||| w ↔ ∃ j < 64, w.toNat.testBit j = true ∧ ¬ v.toNat.testBit j = true := by
  constructor
  · intro hne
    by_contra hnone
    refine hne (word_ext fun j hj ↦ ?_)
    rw [UInt64.toNat_or, Nat.testBit_or]
    cases hw : w.toNat.testBit j with
    | false => rw [Bool.or_false]
    | true =>
      have hv : v.toNat.testBit j = true := by
        by_contra hv
        exact hnone ⟨j, hj, hw, hv⟩
      rw [hv, Bool.true_or]
  · rintro ⟨j, -, hw, hv⟩ heq
    have hbit := congrArg (fun u : UInt64 ↦ u.toNat.testBit j) heq
    simp [Nat.testBit_or, hw, hv] at hbit

end BranchSet

namespace PackedSet

open BranchSet (wordMembers mem_wordMembers)

variable {s t : PackedSet} {w : UInt64} {k i j : Nat}

/-! ## Members by words -/

theorem mem_iff_testBit : i ∈ s ↔ (s.words.getD (i / 64) 0).toNat.testBit (i % 64) = true := by
  change s.words[i / 64]?.any _ = true ↔ _
  rw [Array.getD_eq_getD_getElem?]
  cases s.words[i / 64]? with
  | none => simp
  | some w => simpa using BranchSet.and_bit_ne_zero_iff

theorem mem_at_iff (hj : j < 64) :
    64 * k + j ∈ s ↔ (s.words.getD k 0).toNat.testBit j = true := by
  have hdiv : (64 * k + j) / 64 = k := by omega
  have hmod : (64 * k + j) % 64 = j := by omega
  rw [mem_iff_testBit, hdiv, hmod]

theorem mem_iff_exists :
    i ∈ s ↔ ∃ p ∈ s.words.toList.zipIdx, i ∈ wordMembers p.1 p.2 := by
  rw [mem_iff_testBit, Array.getD_eq_getD_getElem?]
  simp only [List.mem_zipIdx_iff_getElem?, mem_wordMembers, Prod.exists, Array.getElem?_toList]
  constructor
  · intro h
    cases hw : s.words[i / 64]? with
    | none => simp [hw] at h
    | some w => exact ⟨w, i / 64, hw, rfl, by simpa [hw] using h⟩
  · rintro ⟨w, k, hw, rfl, hbit⟩
    simpa [hw] using hbit

@[simp] theorem not_mem_empty : ¬ i ∈ (∅ : PackedSet) := by
  rw [mem_iff_testBit]
  simp [EmptyCollection.emptyCollection]

theorem isEmpty_iff : s.isEmpty = true ↔ ∀ i, ¬ i ∈ s := by
  rw [isEmpty, Array.all_eq_true_iff_forall_mem]
  simp only [beq_iff_eq, mem_iff_testBit]
  constructor
  · intro h i
    rw [Array.getD_eq_getD_getElem?]
    cases hw : s.words[i / 64]? with
    | none => simp
    | some w => simp [h w (Array.mem_of_getElem? hw)]
  · intro h w hw
    obtain ⟨k, hk⟩ := Array.getElem?_of_mem hw
    refine BranchSet.word_ext fun j hj ↦ ?_
    have hnot := h (64 * k + j)
    rw [← mem_iff_testBit, mem_at_iff hj, Array.getD_eq_getD_getElem?, hk] at hnot
    simpa using hnot

/-! ## Growing -/

@[simp] theorem size_grow (s : PackedSet) (n : Nat) :
    (s.grow n).words.size = max s.words.size n := by
  rw [grow, Array.size_rightpad]
  exact Nat.max_comm _ _

@[simp] theorem mem_grow {n : Nat} : i ∈ s.grow n ↔ i ∈ s := by
  have hword : (s.grow n).words.getD (i / 64) 0 = s.words.getD (i / 64) 0 := by
    simp only [grow, Array.rightpad, Array.getD_eq_getD_getElem?]
    grind
  rw [mem_iff_testBit, mem_iff_testBit, hword]

@[simp] theorem size_joinWord (s : PackedSet) (k : Nat) (w : UInt64) :
    (s.joinWord k w).2.words.size = s.words.size := Array.size_setIfInBounds

theorem mem_joinWord (hk : k < s.words.size) :
    i ∈ (s.joinWord k w).2 ↔ i ∈ s ∨ i ∈ wordMembers w k := by
  have hword : (s.joinWord k w).2.words.getD (i / 64) 0 =
      if i / 64 = k then s.words.getD (i / 64) 0 ||| w else s.words.getD (i / 64) 0 := by
    simp only [joinWord, Array.getD_eq_getD_getElem?, Array.getElem?_setIfInBounds]
    grind
  rw [mem_iff_testBit, mem_iff_testBit, mem_wordMembers, hword]
  split
  next h => simp [h, Nat.testBit_or]
  next h => simp [h]

/-- A word changes exactly if it gets a member. -/
theorem joinWord_changes_iff :
    (s.joinWord k w).1 = true ↔ ∃ i ∈ wordMembers w k, ¬ i ∈ s := by
  rw [joinWord, bne_iff_ne, BranchSet.ne_or_iff]
  simp only [mem_wordMembers, mem_iff_testBit]
  constructor
  · rintro ⟨j, hj, hw, hold⟩
    have hdiv : (64 * k + j) / 64 = k := by omega
    have hmod : (64 * k + j) % 64 = j := by omega
    exact ⟨64 * k + j, ⟨hdiv, by rwa [hmod]⟩, by rwa [hdiv, hmod]⟩
  · rintro ⟨i, ⟨rfl, hw⟩, hold⟩
    exact ⟨i % 64, Nat.mod_lt _ (by decide), hw, hold⟩

theorem mem_wordMembers_bit : j ∈ wordMembers (BranchSet.bit i) (i / 64) ↔ j = i := by
  have hmod : j % 64 = i % 64 ↔ i % 64 = j % 64 := eq_comm
  rw [mem_wordMembers, BranchSet.toNat_bit, Nat.one_shiftLeft, Nat.testBit_two_pow,
    decide_eq_true_eq, ← hmod]
  exact BranchSet.eq_iff_div_mod.symm

@[simp] theorem mem_insertGrows : j ∈ (s.insertGrows i).2 ↔ j = i ∨ j ∈ s := by
  have hk : i / 64 < (s.grow (i / 64 + 1)).words.size := by
    rw [size_grow]
    omega
  rw [insertGrows, mem_joinWord hk, mem_grow, mem_wordMembers_bit, or_comm]

theorem insertGrows_grows_iff : (s.insertGrows i).1 = true ↔ ¬ i ∈ s := by
  rw [insertGrows, joinWord_changes_iff]
  simp [mem_wordMembers_bit]

/-- One word after the other gets its members, and a change at any of them is told. -/
theorem joinWords_spec {ws : List (UInt64 × Nat)} (hws : ∀ p ∈ ws, p.2 < s.words.size) :
    (∀ i, i ∈ (s.joinWords ws).2 ↔ i ∈ s ∨ ∃ p ∈ ws, i ∈ wordMembers p.1 p.2) ∧
      ((s.joinWords ws).1 = true ↔ ∃ i, (∃ p ∈ ws, i ∈ wordMembers p.1 p.2) ∧ ¬ i ∈ s) := by
  induction ws generalizing s with
  | nil => simp [joinWords]
  | cons p ws ih =>
    have hp := hws p List.mem_cons_self
    have hrest : ∀ q ∈ ws, q.2 < (s.joinWord p.2 p.1).2.words.size := by
      intro q hq
      rw [size_joinWord]
      exact hws q (List.mem_cons_of_mem _ hq)
    obtain ⟨hmem, hchanged⟩ := ih hrest
    have hjoin : ∀ i, i ∈ (s.joinWord p.2 p.1).2 ↔ i ∈ s ∨ i ∈ wordMembers p.1 p.2 :=
      fun i ↦ mem_joinWord hp
    simp only [joinWords, List.exists_mem_cons_iff, Bool.or_eq_true]
    refine ⟨fun i ↦ ?_, ?_⟩
    · rw [hmem, hjoin, or_assoc]
    · rw [hchanged, joinWord_changes_iff]
      simp only [hjoin]
      constructor
      · rintro (⟨i, hi, hnot⟩ | ⟨i, hi, hnot⟩)
        · exact ⟨i, Or.inl hi, hnot⟩
        · exact ⟨i, Or.inr hi, fun his ↦ hnot (Or.inl his)⟩
      · rintro ⟨i, hi | hi, hnot⟩
        · exact Or.inl ⟨i, hi, hnot⟩
        · by_cases hown : i ∈ wordMembers p.1 p.2
          · exact Or.inl ⟨i, hown, hnot⟩
          · exact Or.inr ⟨i, hi, not_or.mpr ⟨hnot, hown⟩⟩

theorem unionGrows_spec (s t : PackedSet) :
    (∀ i, i ∈ (s.unionGrows t).2 ↔ i ∈ s ∨ i ∈ t) ∧
      ((s.unionGrows t).1 = true ↔ ∃ i, i ∈ t ∧ ¬ i ∈ s) := by
  have hroom : ∀ p ∈ t.words.toList.zipIdx, p.2 < (s.grow t.words.size).words.size := by
    intro p hp
    have hlt := List.snd_lt_of_mem_zipIdx hp
    rw [Array.length_toList] at hlt
    rw [size_grow]
    omega
  obtain ⟨hmem, hgrows⟩ := joinWords_spec hroom
  simp only [mem_grow, ← mem_iff_exists] at hmem hgrows
  exact ⟨hmem, hgrows⟩

@[simp] theorem mem_unionGrows : i ∈ (s.unionGrows t).2 ↔ i ∈ s ∨ i ∈ t :=
  (unionGrows_spec s t).1 i

theorem unionGrows_grows_iff : (s.unionGrows t).1 = true ↔ ∃ i, i ∈ t ∧ ¬ i ∈ s :=
  (unionGrows_spec s t).2

@[simp] theorem mem_ofList {l : List Nat} : i ∈ ofList l ↔ i ∈ l := by
  have hfold : ∀ s : PackedSet, i ∈ l.foldl (fun s i ↦ (s.insertGrows i).2) s ↔ i ∈ s ∨ i ∈ l := by
    induction l with
    | nil => simp
    | cons j l ih =>
      intro s
      rw [List.foldl_cons, ih, mem_insertGrows, List.mem_cons, or_comm (a := i = j), or_assoc]
  rw [ofList, hfold]
  simp

/-! ## The form without zero words at the end -/

theorem exists_words_eq (s : PackedSet) :
    ∃ n, s.words = s.trim.words ++ Array.replicate n 0 := by
  change ∃ n, s.words = s.words.popWhile (· == 0) ++ Array.replicate n 0
  fun_induction Array.popWhile (· == (0 : UInt64)) s.words with
  | case1 words hpos hlast ih =>
    obtain ⟨n, hn⟩ := ih
    obtain ⟨front, w, rfl⟩ := Array.eq_push_of_size_ne_zero (Nat.ne_of_gt hpos)
    have hw : w = 0 := by simpa using hlast
    rw [Array.pop_push] at hn ⊢
    exact ⟨n + 1, by rw [Array.replicate_succ, Array.append_push, ← hn, hw]⟩
  | case2 words => exact ⟨0, Array.append_empty.symm⟩
  | case3 words => exact ⟨0, Array.append_empty.symm⟩

@[simp] theorem mem_trim : i ∈ s.trim ↔ i ∈ s := by
  obtain ⟨n, hn⟩ := s.exists_words_eq
  rw [mem_iff_testBit, BranchSet.mem_iff, BranchSet.contains_eq, hn]
  have hword : (s.trim.words ++ Array.replicate n 0).getD (i / 64) 0 =
      s.trim.words.getD (i / 64) 0 := by
    simp only [Array.getD_eq_getD_getElem?]
    grind
  rw [hword]

theorem beq_iff_trim_eq : (s == t) = true ↔ s.trim = t.trim := by
  change (s.significant == t.significant) = true ↔ _
  rw [beq_iff_eq]
  exact (BranchSet.mk.injEq ..).symm.to_iff

/-- Zero words at the end make no difference. -/
theorem beq_iff_mem : (s == t) = true ↔ ∀ i, i ∈ s ↔ i ∈ t := by
  rw [beq_iff_trim_eq]
  constructor
  · intro h i
    rw [← mem_trim, h, mem_trim]
  · intro h
    exact BranchSet.ext_mem fun i ↦ by rw [mem_trim, mem_trim, h]

example : (({ words := #[8, 0, 0, 0] } : PackedSet) == .ofList [3]) = true := by decide +kernel

theorem isEmpty_eq (s : PackedSet) : s.isEmpty = s.trim.isEmpty := by
  rw [Bool.eq_iff_iff, isEmpty_iff, ← Bool.not_eq_false, BranchSet.isEmpty_eq_false_iff]
  simp

/-- The bits that are set are counted one by one. -/
theorem ones_eq_length_wordMembers (w : UInt64) (k : Nat) :
    ones w = (wordMembers w k).length := by
  have hrec : ∀ n, w.toBitVec.cpopNatRec n 0 =
      ((List.range n).filter (w.toNat.testBit ·)).length := by
    intro n
    induction n with
    | zero => rfl
    | succ n ih =>
      rw [BitVec.cpopNatRec_succ, BitVec.cpopNatRec_eq, ih, List.range_succ, List.filter_append,
        List.length_append, Nat.zero_add, ← BitVec.testBit_toNat]
      change _ + (w.toNat.testBit n).toNat = _
      cases hbit : w.toNat.testBit n <;> simp [hbit]
  rw [ones, BitVec.toNat_cpop, hrec]
  unfold wordMembers
  split
  next h => simp [h]
  next => rw [List.length_map]

theorem count_eq_sum (s : PackedSet) : s.count = (s.words.toList.map ones).sum := by
  rw [count, ← Array.foldl_toList, List.sum_eq_foldl, List.foldl_map]

theorem count_eq_size (s : PackedSet) : s.count = s.trim.size := by
  obtain ⟨n, hn⟩ := s.exists_words_eq
  have hzeros : ((Array.replicate n 0).toList.map ones).sum = 0 := by
    simp [ones]
  calc
    s.count = (s.trim.words.toList.map ones).sum := by
      rw [count_eq_sum, hn, Array.toList_append, List.map_append, List.sum_append, hzeros,
        Nat.add_zero]
    _ = ((s.trim.words.toList.zipIdx.map Prod.fst).map ones).sum := by
      rw [List.zipIdx_map_fst]
    _ = (s.trim.words.toList.zipIdx.map fun p ↦ (wordMembers p.1 p.2).length).sum := by
      rw [List.map_map]
      congr 2
      funext p
      exact ones_eq_length_wordMembers p.1 p.2
    _ = s.trim.size := by rw [BranchSet.size, BranchSet.toList, List.length_flatMap]

theorem trim_empty : (∅ : PackedSet).trim = ∅ := BranchSet.ext_mem fun i ↦ by simp

theorem trim_grow (s : PackedSet) (n : Nat) : (s.grow n).trim = s.trim :=
  BranchSet.ext_mem fun i ↦ by simp

theorem trim_ofList (l : List Nat) : (ofList l).trim = .ofList l :=
  BranchSet.ext_mem fun i ↦ by simp [BranchSet.mem_ofList]

theorem trim_insertGrows (s : PackedSet) (i : Nat) :
    Prod.map id trim (s.insertGrows i) = s.trim.insertGrows i := by
  refine Prod.ext ?_ (BranchSet.ext_mem fun j ↦ ?_)
  · change (s.insertGrows i).1 = !s.trim.contains i
    rw [Bool.eq_iff_iff, insertGrows_grows_iff, ← mem_trim, Bool.not_eq_true',
      ← Bool.not_eq_true]
    rfl
  · change j ∈ (s.insertGrows i).2.trim ↔ j ∈ s.trim.insert i
    simp

theorem trim_unionGrows (s t : PackedSet) :
    Prod.map id trim (s.unionGrows t) = s.trim.unionGrows t.trim := by
  have hunion : (s.unionGrows t).2.trim = s.trim ∪ t.trim :=
    BranchSet.ext_mem fun i ↦ by simp
  refine Prod.ext ?_ hunion
  change (s.unionGrows t).1 = (s.trim ∪ t.trim != s.trim)
  rw [Bool.eq_iff_iff, unionGrows_grows_iff, bne_iff_ne]
  constructor
  · rintro ⟨i, ht, hs⟩ heq
    rw [← mem_trim, ← heq] at hs
    exact hs (BranchSet.mem_union.mpr (Or.inr (mem_trim.mpr ht)))
  · intro hne
    by_contra hnone
    refine hne (BranchSet.ext_mem fun i ↦ ?_)
    rw [BranchSet.mem_union, mem_trim, mem_trim, or_iff_left_iff_imp]
    intro ht
    by_contra hs
    exact hnone ⟨i, ht, hs⟩

end PackedSet

end ProbeCoverage
