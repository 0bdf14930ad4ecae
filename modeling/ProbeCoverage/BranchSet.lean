import Std.Data.ExtTreeMap

/-!
# Sets of branch indices

A set of natural numbers, packed into words of 64 bits. The set grows as far as its largest member
needs, and its last word is never zero, so sets with the same members are equal.
-/

namespace ProbeCoverage

structure BranchSet where
  words : Array UInt64
  last_ne_zero : words.back? ≠ some 0
deriving DecidableEq

namespace BranchSet

instance : EmptyCollection BranchSet := ⟨⟨#[], by simp⟩⟩

def contains (s : BranchSet) (i : Nat) : Bool :=
  match s.words[i / 64]? with
  | some w => w.toNat.testBit (i % 64)
  | none => false

instance : Membership Nat BranchSet := ⟨fun s i ↦ s.contains i = true⟩

instance (i : Nat) (s : BranchSet) : Decidable (i ∈ s) :=
  inferInstanceAs (Decidable (s.contains i = true))

def isEmpty (s : BranchSet) : Bool := s.words.isEmpty

/-- The word that holds index `i` and nothing else. -/
def bit (i : Nat) : UInt64 := 1 <<< (i % 64).toUInt64

theorem toNat_bit (i : Nat) : (bit i).toNat = 1 <<< (i % 64) := by
  have hi : i % 64 < 64 := Nat.mod_lt _ (by decide)
  have hp := Nat.pow_lt_pow_right (a := 2) (by decide) hi
  have hm : i % 64 % 18446744073709551616 % 64 = i % 64 := by omega
  simpa [bit, hm, Nat.shiftLeft_eq] using hp

theorem bit_ne_zero (i : Nat) : bit i ≠ 0 := by
  intro h
  have hb := toNat_bit i
  rw [h, Nat.one_shiftLeft] at hb
  exact absurd hb.symm (Nat.pos_iff_ne_zero.mp (Nat.two_pow_pos _))

theorem or_eq_zero {a b : UInt64} : a ||| b = 0 ↔ a = 0 ∧ b = 0 := by
  simp [← UInt64.toNat_inj, Nat.or_eq_zero_iff]

/-- Adds index `i`, with zero words in front of its own where the set ended before. -/
def insert (s : BranchSet) (i : Nat) : BranchSet where
  words :=
    if i / 64 < s.words.size then s.words.modify (i / 64) (· ||| bit i)
    else (s.words ++ Array.replicate (i / 64 - s.words.size) 0).push (bit i)
  last_ne_zero := by
    have hs := s.last_ne_zero
    split
    next h =>
      rw [Array.back?_eq_getElem?] at hs ⊢
      rw [Array.size_modify, Array.getElem?_modify]
      split
      next =>
        intro hw
        obtain ⟨a, -, ha⟩ := Option.map_eq_some_iff.mp hw
        exact bit_ne_zero i (or_eq_zero.mp ha).2
      next => exact hs
    next => simpa using bit_ne_zero i

theorem isEmpty_insert (s : BranchSet) (i : Nat) : (s.insert i).isEmpty = false := by
  unfold isEmpty insert
  split
  next h => simpa [Array.isEmpty, Array.size_modify] using Nat.ne_of_gt (Nat.zero_lt_of_lt h)
  next => simp

/-- The words of `long`, each joined with the word of `short` at its position. -/
def joinWords (long short : Array UInt64) : Array UInt64 :=
  long.mapIdx fun k w ↦ w ||| short.getD k 0

theorem back?_joinWords_ne_zero {long : Array UInt64} (h : long.back? ≠ some 0)
    (short : Array UInt64) : (joinWords long short).back? ≠ some 0 := by
  rw [Array.back?_eq_getElem?] at h ⊢
  rw [joinWords, Array.size_mapIdx, Array.getElem?_mapIdx]
  intro hw
  obtain ⟨w, hlong, hor⟩ := Option.map_eq_some_iff.mp hw
  exact h (hlong.trans (congrArg some (or_eq_zero.mp hor).1))

/-- Joins two sets word by word, over the length of the longer one. -/
def union (s t : BranchSet) : BranchSet :=
  if s.words.size ≤ t.words.size then
    ⟨joinWords t.words s.words, back?_joinWords_ne_zero t.last_ne_zero _⟩
  else
    ⟨joinWords s.words t.words, back?_joinWords_ne_zero s.last_ne_zero _⟩

instance : Union BranchSet := ⟨union⟩

def ofList (l : List Nat) : BranchSet := l.foldl insert ∅

/-- The members of one word, the word being the one at position `k`. -/
def wordMembers (w : UInt64) (k : Nat) : List Nat :=
  if w = 0 then []
  else ((List.range 64).filter (w.toNat.testBit ·)).map (64 * k + ·)

def toList (s : BranchSet) : List Nat :=
  s.words.toList.zipIdx.flatMap fun (w, k) ↦ wordMembers w k

def size (s : BranchSet) : Nat := s.toList.length

/-- Adds an index, and tells whether the set grew. -/
def insertGrows (s : BranchSet) (i : Nat) : Bool × BranchSet := (!s.contains i, s.insert i)

/-- Adds the members of `t`, and tells whether the set grew. -/
def unionGrows (s t : BranchSet) : Bool × BranchSet :=
  let u := s.union t
  (u != s, u)

/-- The members in braces, as in `\x7b0, 70\x7d`. -/
def text (s : BranchSet) : String :=
  "\x7b" ++ String.intercalate ", " (s.toList.map toString) ++ "\x7d"

end BranchSet

end ProbeCoverage
