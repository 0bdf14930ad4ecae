import ProbeCoverage.BranchSet

/-!
# Sets that grow word by word

A set of natural numbers as it is kept while it is filled: words of 64 bits, as many as an index has
asked for so far. Words at the end may be zero, so one set has many forms; it is compared by the
words up to the last that is not zero, which are its form as a `BranchSet`.
-/

namespace ProbeCoverage

structure PackedSet where
  words : Array UInt64 := #[]

namespace PackedSet

instance : EmptyCollection PackedSet := ⟨{}⟩

def isEmpty (s : PackedSet) : Bool := s.words.all (· == 0)

def contains (s : PackedSet) (i : Nat) : Bool :=
  s.words[i / 64]?.any (· &&& BranchSet.bit i != 0)

instance : Membership Nat PackedSet := ⟨fun s i ↦ s.contains i = true⟩

/-- How many bits of a word are set. -/
def ones (w : UInt64) : Nat := w.toBitVec.cpop.toNat

def count (s : PackedSet) : Nat := s.words.foldl (fun n w ↦ n + ones w) 0

def clear (_ : PackedSet) : PackedSet := ∅

/-! ## Growing -/

/-- Makes room for `n` words. -/
def grow (s : PackedSet) (n : Nat) : PackedSet := ⟨s.words.rightpad n 0⟩

/-- Joins `w` into the word at position `k`, and tells whether that changed. -/
def joinWord (s : PackedSet) (k : Nat) (w : UInt64) : Bool × PackedSet :=
  let old := s.words.getD k 0
  (old != old ||| w, ⟨s.words.setIfInBounds k (old ||| w)⟩)

/-- Adds an index, and tells whether the set grew. -/
def insertGrows (s : PackedSet) (i : Nat) : Bool × PackedSet :=
  (s.grow (i / 64 + 1)).joinWord (i / 64) (BranchSet.bit i)

/-- Joins words in their turn, each at its position, and tells whether one of them changed. -/
def joinWords (s : PackedSet) : List (UInt64 × Nat) → Bool × PackedSet
  | [] => (false, s)
  | (w, k) :: ws =>
    let (changes, s) := s.joinWord k w
    let (changed, s) := s.joinWords ws
    (changes || changed, s)

/-- Adds the members of `t`, and tells whether the set grew. -/
def unionGrows (s t : PackedSet) : Bool × PackedSet :=
  (s.grow t.words.size).joinWords t.words.toList.zipIdx

def ofList (l : List Nat) : PackedSet := l.foldl (fun s i ↦ (s.insertGrows i).2) ∅

/-! ## Reading in order -/

/-- A place between the members: what is at `bit` of the word at `word`, or later, is still to be
read. -/
structure Cursor where
  word : Nat := 0
  bit : Nat := 0
  bit_le : bit ≤ 64 := by decide

/-- The index that is to be looked at next. -/
def Cursor.place (c : Cursor) : Nat := 64 * c.word + c.bit

/-- Reads on to the next member. The rest of a word is skipped as soon as it is zero. -/
def next (s : PackedSet) (c : Cursor) : Option Nat × Cursor :=
  match _hw : s.words[c.word]? with
  | none => (none, c)
  | some w =>
    if h : c.bit ≥ 64 ∨ w >>> c.bit.toUInt64 = 0 then s.next { word := c.word + 1 }
    else
      have hbit : c.bit + 1 ≤ 64 := Nat.lt_of_not_le fun hle ↦ h (Or.inl hle)
      if w &&& BranchSet.bit c.bit ≠ 0 then
        (some (64 * c.word + c.bit), { word := c.word, bit := c.bit + 1, bit_le := hbit })
      else s.next { word := c.word, bit := c.bit + 1, bit_le := hbit }
termination_by (s.words.size - c.word, 64 - c.bit)
decreasing_by
  · have hlt := (Array.getElem?_eq_some_iff.mp _hw).1
    exact Prod.Lex.left _ _ (Nat.sub_succ_lt_self _ _ hlt)
  · exact Prod.Lex.right _ (Nat.sub_succ_lt_self _ _ hbit)

/-- The cursor moves to the place behind the member that was read. -/
theorem bounds_of_next {s : PackedSet} {c d : Cursor} {i : Nat} (h : s.next c = (some i, d)) :
    c.place ≤ i ∧ i < 64 * s.words.size ∧ d.place = i + 1 := by
  fun_induction next s c with
  | case1 c hw => cases h
  | case2 c w hw hskip ih =>
    obtain ⟨hle, hrest⟩ := ih h
    have hbit := c.bit_le
    refine ⟨?_, hrest⟩
    simp only [Cursor.place] at hle ⊢
    omega
  | case3 c w hw hskip hbit hmem =>
    obtain ⟨hi, rfl⟩ := Prod.mk.inj h
    cases hi
    have hlt := (Array.getElem?_eq_some_iff.mp hw).1
    simp only [Cursor.place]
    omega
  | case4 c w hw hskip hbit hmem ih =>
    obtain ⟨hle, hrest⟩ := ih h
    refine ⟨?_, hrest⟩
    simp only [Cursor.place] at hle ⊢
    omega

/-- The members from `c` on, in the order in which they are read. -/
def itemsFrom (s : PackedSet) (c : Cursor) : List Nat :=
  match _h : s.next c with
  | (some i, d) => i :: s.itemsFrom d
  | (none, _) => []
termination_by 64 * s.words.size - c.place
decreasing_by
  have hbounds := bounds_of_next _h
  omega

def items (s : PackedSet) : List Nat := s.itemsFrom {}

/-! ## Comparing -/

/-- The words up to the last that is not zero. -/
def significant (s : PackedSet) : Array UInt64 := s.words.popWhile (· == 0)

instance : BEq PackedSet := ⟨fun s t ↦ s.significant == t.significant⟩

theorem back?_significant_ne_zero (s : PackedSet) : s.significant.back? ≠ some 0 := by
  unfold significant
  fun_induction Array.popWhile (· == (0 : UInt64)) s.words with
  | case1 words _ _ ih => exact ih
  | case2 words hpos hlast =>
    intro hback
    rw [Array.back?_eq_getElem?, Array.getElem?_eq_getElem (Nat.sub_one_lt_of_lt hpos)] at hback
    exact hlast (beq_iff_eq.mpr (Option.some.inj hback))
  | case3 words hempty =>
    intro hback
    rw [Array.eq_empty_of_size_eq_zero (Nat.eq_zero_of_not_pos hempty)] at hback
    cases hback

/-- The set without the zero words at its end. -/
def trim (s : PackedSet) : BranchSet := ⟨s.significant, s.back?_significant_ne_zero⟩

end PackedSet

end ProbeCoverage
