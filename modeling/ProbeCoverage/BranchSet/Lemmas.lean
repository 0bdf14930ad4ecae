import ProbeCoverage.BranchSet

/-!
# Members of branch sets

Each operation in terms of the members, and sets with the same members are equal.
-/

namespace ProbeCoverage.BranchSet

theorem mem_iff {s : BranchSet} {i : Nat} : i ∈ s ↔ s.contains i = true := Iff.rfl

theorem eq_iff_div_mod {i j : Nat} : i = j ↔ i / 64 = j / 64 ∧ i % 64 = j % 64 := by
  constructor
  · rintro rfl
    exact ⟨rfl, rfl⟩
  · rintro ⟨hd, hm⟩
    rw [← Nat.div_add_mod i 64, ← Nat.div_add_mod j 64, hd, hm]

theorem testBit_or_bit (w : UInt64) (i k : Nat) :
    (w ||| bit i).toNat.testBit k = (w.toNat.testBit k || decide (i % 64 = k)) := by
  rw [UInt64.toNat_or, Nat.testBit_or, toNat_bit, Nat.one_shiftLeft, Nat.testBit_two_pow]

/-- Words are equal if their 64 bits are. -/
theorem word_ext {v w : UInt64} (h : ∀ b < 64, v.toNat.testBit b = w.toNat.testBit b) : v = w := by
  rw [← UInt64.toNat_inj]
  apply Nat.eq_of_testBit_eq
  intro b
  by_cases hb : b < 64
  · exact h b hb
  · have hlt : ∀ u : UInt64, u.toNat.testBit b = false := fun u ↦
      Nat.testBit_lt_two_pow (Nat.lt_of_lt_of_le u.toNat_lt
        (Nat.pow_le_pow_right (by decide) (Nat.le_of_not_lt hb)))
    rw [hlt, hlt]

@[simp] theorem contains_empty (i : Nat) : (∅ : BranchSet).contains i = false := rfl

theorem contains_eq (s : BranchSet) (i : Nat) :
    s.contains i = (s.words.getD (i / 64) 0).toNat.testBit (i % 64) := by
  rw [contains, Array.getD_eq_getD_getElem?]
  cases s.words[i / 64]? with
  | some w => rfl
  | none => simp

theorem getD_insert_words (s : BranchSet) (i k : Nat) :
    (s.insert i).words.getD k 0 =
      if i / 64 = k then s.words.getD k 0 ||| bit i else s.words.getD k 0 := by
  simp only [Array.getD_eq_getD_getElem?, insert]
  split
  next h =>
    rw [Array.getElem?_modify]
    split
    next hk =>
      subst hk
      simp [h]
    next => rfl
  next h =>
    rw [Array.getElem?_push]
    grind

theorem contains_insert (s : BranchSet) (i j : Nat) :
    (s.insert i).contains j = (decide (i = j) || s.contains j) := by
  have hij := @eq_iff_div_mod i j
  rw [contains_eq, contains_eq, getD_insert_words]
  split
  next h =>
    rw [testBit_or_bit, Bool.or_comm]
    simp only [hij, h, true_and]
  next h => simp only [hij, h, false_and, decide_false, Bool.false_or]

theorem getD_joinWords {long short : Array UInt64} (h : short.size ≤ long.size) (k : Nat) :
    (joinWords long short).getD k 0 = long.getD k 0 ||| short.getD k 0 := by
  simp only [joinWords, Array.getD_eq_getD_getElem?, Array.getElem?_mapIdx]
  grind

theorem getD_union_words (s t : BranchSet) (k : Nat) :
    (s.union t).words.getD k 0 = s.words.getD k 0 ||| t.words.getD k 0 := by
  unfold union
  split
  next h => rw [getD_joinWords h, UInt64.or_comm]
  next h => rw [getD_joinWords (Nat.le_of_not_le h)]

theorem contains_union (s t : BranchSet) (i : Nat) :
    (s ∪ t).contains i = (s.contains i || t.contains i) := by
  change (s.union t).contains i = _
  rw [contains_eq, contains_eq, contains_eq, getD_union_words, UInt64.toNat_or, Nat.testBit_or]

theorem getD_words_eq {s t : BranchSet} (h : ∀ i, s.contains i = t.contains i) (k : Nat) :
    s.words.getD k 0 = t.words.getD k 0 := by
  apply word_ext
  intro b hb
  have hi := h (64 * k + b)
  rw [contains_eq, contains_eq] at hi
  have hd : (64 * k + b) / 64 = k := by omega
  have hm : (64 * k + b) % 64 = b := by omega
  rwa [hd, hm] at hi

/-- The last word is not zero, so a set that is as long in words has a member there. -/
theorem size_words_le {s t : BranchSet} (h : ∀ i, s.contains i = t.contains i) :
    s.words.size ≤ t.words.size := by
  apply Nat.le_of_not_lt
  intro hlt
  have hw := getD_words_eq h (s.words.size - 1)
  have hs := s.last_ne_zero
  rw [Array.back?_eq_getElem?] at hs
  simp only [Array.getD_eq_getD_getElem?] at hw
  grind

theorem ext {s t : BranchSet} (h : ∀ i, s.contains i = t.contains i) : s = t := by
  have hsize : s.words.size = t.words.size :=
    Nat.le_antisymm (size_words_le h) (size_words_le fun i ↦ (h i).symm)
  have hwords : s.words = t.words := by
    apply Array.ext hsize
    intro k hk hk'
    have hw := getD_words_eq h k
    simpa only [Array.getD_eq_getD_getElem?, hk, hk', Array.getElem?_eq_getElem,
      Option.getD_some] using hw
  cases s
  cases t
  cases hwords
  rfl

end ProbeCoverage.BranchSet
