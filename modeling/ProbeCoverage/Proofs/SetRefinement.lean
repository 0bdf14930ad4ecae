import Mathlib.Data.Finset.Card
import Mathlib.Data.List.Sort
import ProbeCoverage.Proofs.PackedSet

/-!
# Packed sets are finite sets

However a set was filled and however many zero words it has grown on the way, it shows its members
and nothing else: in the answers of each call, in what is read from it in order, and in comparisons.
-/

namespace ProbeCoverage

namespace PackedSet

/-! ## Reading in order -/

variable {s : PackedSet} {c d : Cursor} {o : Option Nat} {w : UInt64} {k i j : Nat}

theorem lt_size_of_mem (h : j ∈ s) : j / 64 < s.words.size := by
  by_contra hge
  rw [mem_iff_testBit, Array.getD_eq_getD_getElem?,
    Array.getElem?_eq_none (Nat.le_of_not_lt hge)] at h
  simp at h

theorem getD_of_getElem? (hw : s.words[k]? = some w) : s.words.getD k 0 = w := by
  rw [Array.getD_eq_getD_getElem?, hw, Option.getD_some]

/-- The bit at the cursor tells whether its place is a member. -/
theorem mem_place_iff (hw : s.words[c.word]? = some w) (hbit : c.bit < 64) :
    64 * c.word + c.bit ∈ s ↔ w &&& BranchSet.bit c.bit ≠ 0 := by
  rw [mem_at_iff hbit, getD_of_getElem? hw, BranchSet.and_bit_ne_zero_iff,
    Nat.mod_eq_of_lt hbit]

/-- A word that is skipped has no more members. -/
theorem le_of_skipped (hw : s.words[c.word]? = some w)
    (hskip : c.bit ≥ 64 ∨ w >>> c.bit.toUInt64 = 0) (hj : j ∈ s) (hle : c.place ≤ j) :
    64 * (c.word + 1) ≤ j := by
  by_contra hlt
  simp only [Cursor.place] at hle
  have hdiv : j / 64 = c.word := by omega
  rcases hskip with hbig | hzero
  · omega
  · have hbit : c.bit < 64 := by omega
    have hnone := (BranchSet.shiftRight_eq_zero_iff hbit).mp hzero (j % 64) (by omega)
    rw [mem_iff_testBit, hdiv, getD_of_getElem? hw, hnone] at hj
    cases hj

theorem mem_of_next (h : s.next c = (some i, d)) : i ∈ s := by
  fun_induction next s c with
  | case1 => cases h
  | case2 c w hw hskip ih => exact ih h
  | case3 c w hw hskip hbit hmem =>
    obtain ⟨hi, -⟩ := Prod.mk.inj h
    cases hi
    exact (mem_place_iff hw hbit).mpr hmem
  | case4 c w hw hskip hbit hmem ih => exact ih h

/-- No member is passed over. -/
theorem exists_le_of_next (h : s.next c = (o, d)) (hj : j ∈ s) (hle : c.place ≤ j) :
    ∃ i, o = some i ∧ i ≤ j := by
  fun_induction next s c with
  | case1 c hw =>
    have hsize := Array.getElem?_eq_none_iff.mp hw
    have hlt := lt_size_of_mem hj
    simp only [Cursor.place] at hle
    omega
  | case2 c w hw hskip ih => exact ih h (le_of_skipped hw hskip hj hle)
  | case3 c w hw hskip hbit hmem =>
    obtain ⟨rfl, -⟩ := Prod.mk.inj h
    exact ⟨_, rfl, hle⟩
  | case4 c w hw hskip hbit hmem ih =>
    have hne : j ≠ 64 * c.word + c.bit := by
      rintro rfl
      exact hmem ((mem_place_iff hw hbit).mp hj)
    refine ih h ?_
    simp only [Cursor.place] at hle ⊢
    omega

/-- Reading on from `c` until nothing is left gives the members `l`. -/
inductive Yields (s : PackedSet) : Cursor → List Nat → Prop
  | done {c d : Cursor} : s.next c = (none, d) → Yields s c []
  | item {c d : Cursor} {i : Nat} {l : List Nat} :
      s.next c = (some i, d) → Yields s d l → Yields s c (i :: l)

theorem yields_itemsFrom (s : PackedSet) (c : Cursor) : s.Yields c (s.itemsFrom c) := by
  fun_induction itemsFrom s c with
  | case1 c i d h ih => exact .item h ih
  | case2 c d h => exact .done h

theorem Yields.unique {l l' : List Nat} (h : s.Yields c l) (h' : s.Yields c l') : l = l' := by
  induction h generalizing l' with
  | done hnext =>
    cases h' with
    | done _ => rfl
    | item hnext' _ =>
      rw [hnext] at hnext'
      cases hnext'
  | item hnext _ ih =>
    cases h' with
    | done hnext' =>
      rw [hnext] at hnext'
      cases hnext'
    | item hnext' hrest =>
      rw [hnext] at hnext'
      cases hnext'
      rw [ih hrest]

theorem yields_iff {l : List Nat} : s.Yields c l ↔ l = s.itemsFrom c := by
  constructor
  · intro h
    exact h.unique (s.yields_itemsFrom c)
  · rintro rfl
    exact s.yields_itemsFrom c

theorem mem_itemsFrom : j ∈ s.itemsFrom c ↔ j ∈ s ∧ c.place ≤ j := by
  fun_induction itemsFrom s c with
  | case1 c i d h ih =>
    obtain ⟨hplace, -, hnext⟩ := bounds_of_next h
    rw [List.mem_cons, ih, hnext]
    constructor
    · rintro (rfl | ⟨hj, hlt⟩)
      · exact ⟨mem_of_next h, hplace⟩
      · exact ⟨hj, by omega⟩
    · rintro ⟨hj, hle⟩
      obtain ⟨_, hi, hij⟩ := exists_le_of_next h hj hle
      cases hi
      rcases Nat.eq_or_lt_of_le hij with heq | hlt
      · exact Or.inl heq.symm
      · exact Or.inr ⟨hj, hlt⟩
  | case2 c d h =>
    refine ⟨fun hnil ↦ (List.not_mem_nil hnil).elim, ?_⟩
    rintro ⟨hj, hle⟩
    obtain ⟨_, hi, -⟩ := exists_le_of_next h hj hle
    cases hi

theorem pairwise_itemsFrom (s : PackedSet) (c : Cursor) :
    (s.itemsFrom c).Pairwise (· < ·) := by
  fun_induction itemsFrom s c with
  | case1 c i d h ih =>
    refine List.Pairwise.cons (fun j hj ↦ ?_) ih
    have hle := (mem_itemsFrom.mp hj).2
    obtain ⟨-, -, hnext⟩ := bounds_of_next h
    omega
  | case2 => exact .nil

theorem mem_items : i ∈ s.items ↔ i ∈ s := by
  rw [items, mem_itemsFrom]
  exact and_iff_left (Nat.zero_le i)

theorem items_eq_toList (s : PackedSet) : s.items = s.trim.toList := by
  have hread := s.pairwise_itemsFrom {}
  have hlisted := s.trim.pairwise_toList
  refine List.Perm.eq_of_pairwise (fun i j _ _ hij hji ↦ absurd hji (Nat.lt_asymm hij)) hread
    hlisted ?_
  refine (List.perm_ext_iff_of_nodup (hread.imp Nat.ne_of_lt) (hlisted.imp Nat.ne_of_lt)).mpr
    fun i ↦ ?_
  rw [BranchSet.mem_toList, mem_trim]
  exact mem_items

/-! ## Sets and their histories -/

/-- What a packed set shows of the finite set that it stands for. Reading it from the start comes to
an end, with every member once and in ascending order. -/
structure Shows (s : PackedSet) (members : Finset Nat) : Prop where
  contains : ∀ i, s.contains i = true ↔ i ∈ members
  isEmpty : s.isEmpty = true ↔ members = ∅
  count : s.count = members.card
  yields : ∀ l, s.Yields {} l ↔ l = s.items
  ascending : s.items.Pairwise (· < ·)
  mem_items : ∀ i, i ∈ s.items ↔ i ∈ members

/-- Whatever its words, a set shows its members. -/
theorem shows_of_mem {members : Finset Nat} (h : ∀ i, i ∈ s ↔ i ∈ members) :
    Shows s members where
  contains := h
  isEmpty := by
    rw [isEmpty_iff, Finset.eq_empty_iff_forall_notMem]
    exact forall_congr' fun i ↦ not_congr (h i)
  count := by
    have hnodup : s.trim.toList.Nodup := s.trim.pairwise_toList.imp Nat.ne_of_lt
    have hlisted : s.trim.toList.toFinset = members := by
      ext i
      rw [List.mem_toFinset, BranchSet.mem_toList, mem_trim, h]
    rw [count_eq_size, BranchSet.size, ← hlisted, List.toFinset_card_of_nodup hnodup]
  yields _ := yields_iff
  ascending := s.pairwise_itemsFrom {}
  mem_items i := mem_items.trans (h i)

/-- How a set has come about. It may have made room for any number of words in between. -/
inductive History
  | new
  | collect (l : List Nat)
  | insert (h : History) (i : Nat)
  | union (h other : History)
  | clear (h : History)
  | grow (h : History) (n : Nat)

namespace History

def run : History → PackedSet
  | new => ∅
  | collect l => ofList l
  | insert h i => (h.run.insertGrows i).2
  | union h other => (h.run.unionGrows other.run).2
  | clear h => h.run.clear
  | grow h n => h.run.grow n

/-- The same calls on finite sets. -/
def members : History → Finset Nat
  | new => ∅
  | collect l => l.toFinset
  | insert h i => Insert.insert i h.members
  | union h other => h.members ∪ other.members
  | clear _ => ∅
  | grow h _ => h.members

theorem mem_run (h : History) : i ∈ h.run ↔ i ∈ h.members := by
  induction h with
  | new => simp [run, members]
  | collect l => simp [run, members]
  | insert h j ih => simp [run, members, ih]
  | union h other ih ihother => simp [run, members, ih, ihother]
  | clear h => exact iff_of_false not_mem_empty (Finset.notMem_empty i)
  | grow h n ih => simp [run, members, ih]

theorem shows_run (h : History) : Shows h.run h.members := shows_of_mem fun _ ↦ h.mem_run

/-- The same calls on branch sets. -/
def branches : History → BranchSet
  | new => ∅
  | collect l => .ofList l
  | insert h i => (h.branches.insertGrows i).2
  | union h other => (h.branches.unionGrows other.branches).2
  | clear _ => ∅
  | grow h _ => h.branches

/-- A branch set is what a packed set is without the zero words, whatever the calls. -/
theorem trim_run (h : History) : h.run.trim = h.branches := by
  induction h with
  | new => exact trim_empty
  | collect l => exact trim_ofList l
  | insert h i ih =>
    rw [branches, ← ih, ← trim_insertGrows]
    rfl
  | union h other ih ihother =>
    rw [branches, ← ih, ← ihother, ← trim_unionGrows]
    rfl
  | clear h => exact trim_empty
  | grow h n ih => exact (trim_grow h.run n).trans ih

/-- After the same calls a branch set answers as the packed set does. -/
theorem branches_agree (h h' : History) :
    (∀ i, h.branches.contains i = h.run.contains i) ∧
      h.branches.isEmpty = h.run.isEmpty ∧ h.branches.size = h.run.count ∧
      h.branches.toList = h.run.items ∧
      (∀ i, (h.branches.insertGrows i).1 = (h.run.insertGrows i).1) ∧
      (h.branches.unionGrows h'.branches).1 = (h.run.unionGrows h'.run).1 ∧
      (h.branches = h'.branches ↔ (h.run == h'.run) = true) := by
  rw [← h.trim_run, ← h'.trim_run]
  refine ⟨fun i ↦ Bool.eq_iff_iff.mpr mem_trim, h.run.isEmpty_eq.symm, h.run.count_eq_size.symm,
    h.run.items_eq_toList.symm, fun i ↦ ?_, ?_, beq_iff_trim_eq.symm⟩
  · rw [← trim_insertGrows]
    rfl
  · rw [← trim_unionGrows]
    rfl

end History

/-- However two sets have come about, each shows the finite set that the same calls lead to; a call
that adds members tells exactly whether there are more of them, and adds these only; and the sets
are equal exactly if their members are. -/
theorem refines_finset (h h' : History) :
    Shows h.run h.members ∧
      (∀ i, ((h.run.insertGrows i).1 = true ↔ h.members ⊂ insert i h.members) ∧
        Shows (h.run.insertGrows i).2 (insert i h.members)) ∧
      ((h.run.unionGrows h'.run).1 = true ↔ h.members ⊂ h.members ∪ h'.members) ∧
      Shows (h.run.unionGrows h'.run).2 (h.members ∪ h'.members) ∧
      ((h.run == h'.run) = true ↔ h.members = h'.members) := by
  refine ⟨h.shows_run, fun i ↦ ⟨?_, (h.insert i).shows_run⟩, ?_, (h.union h').shows_run, ?_⟩
  · rw [insertGrows_grows_iff, h.mem_run,
      Finset.ssubset_iff_of_subset (Finset.subset_insert i h.members)]
    simp
  · rw [unionGrows_grows_iff, Finset.ssubset_iff_of_subset Finset.subset_union_left]
    simp only [h.mem_run, h'.mem_run, Finset.mem_union]
    refine exists_congr fun i ↦ and_congr_left fun hi ↦ ?_
    rw [or_iff_right hi]
  · rw [beq_iff_mem, Finset.ext_iff]
    exact forall_congr' fun i ↦ by rw [h.mem_run, h'.mem_run]

end PackedSet

end ProbeCoverage
