import ProbeCoverage.Proofs.Spread

/-!
# How long a walk back is

The links of the instructions may lead anywhere: in circles, into circles, out of the array. The
walk back ends all the same. It goes on only from an instruction that it has just covered, so it
makes at most one round more than there are instructions to cover.
-/

namespace ProbeCoverage

/-- The walk back from `b` makes `k` rounds and leaves the nodes `final`. A round marks the branch
that the walk has come to; another one follows if its instruction was uncovered and has a link. -/
inductive Walks : Array Node → Branch → Nat → Array Node → Prop
  | outside {nodes : Array Node} {b : Branch} : nodes[b.node]? = none → Walks nodes b 0 nodes
  | stop {nodes : Array Node} {b : Branch} {n : Node} :
      nodes[b.node]? = some n → n.isCovered = true ∨ n.link = none →
      Walks nodes b 1 (nodes.setIfInBounds b.node (n.cover b.index))
  | next {nodes final : Array Node} {b c : Branch} {n : Node} {k : Nat} :
      nodes[b.node]? = some n → n.isCovered = false → n.link = some c →
      Walks (nodes.setIfInBounds b.node (n.cover b.index)) c k final → Walks nodes b (k + 1) final

variable {nodes final final' : Array Node} {b : Branch} {n : Node} {k j : Nat}

/-! ## One round -/

theorem mark_of_some (hn : nodes[b.node]? = some n) : mark nodes b =
    (nodes.setIfInBounds b.node (n.cover b.index), if n.isCovered then none else n.link) := by
  simp only [mark, hn]

theorem mark_of_none (hn : nodes[b.node]? = none) : mark nodes b = (nodes, none) := by
  simp only [mark, hn]

/-- Covering an instruction leaves one less to cover, unless it was covered. -/
theorem uncovered_cover (hn : nodes[b.node]? = some n) :
    uncovered (nodes.setIfInBounds b.node (n.cover b.index)) + (if n.isCovered then 0 else 1) =
      uncovered nodes := by
  obtain ⟨hb, hget⟩ := Array.getElem?_eq_some_iff.mp hn
  have hcount : uncovered (nodes.setIfInBounds b.node (n.cover b.index)) =
      uncovered nodes - if n.isCovered = false then 1 else 0 := by
    simp [uncovered, Array.setIfInBounds, hb, Array.countP_set, hget]
  rw [hcount]
  cases hc : n.isCovered with
  | true => rfl
  | false =>
    have hpos : 0 < uncovered nodes :=
      Array.countP_pos_iff.mpr ⟨n, Array.mem_of_getElem hget, by simp [hc]⟩
    exact Nat.sub_add_cancel hpos

theorem taken_of_taken_cover (hn : nodes[b.node]? = some n) {c : Branch} (hc : Taken nodes c) :
    Taken (nodes.setIfInBounds b.node (n.cover b.index)) c := by
  have hmark : Taken (mark nodes b).1 c := taken_mark.mpr (Or.inl hc)
  rwa [mark_of_some hn] at hmark

/-! ## All rounds -/

/-- Spreading a branch is a walk back from it. -/
theorem exists_walks_spread (nodes : Array Node) (b : Branch) :
    ∃ k, Walks nodes b k (spread nodes b) := by
  fun_induction spread nodes b with
  | case1 nodes b marked hmark =>
    cases hn : nodes[b.node]? with
    | none =>
      rw [mark_of_none hn] at hmark
      obtain ⟨rfl, -⟩ := Prod.mk.inj hmark
      exact ⟨0, .outside hn⟩
    | some n =>
      rw [mark_of_some hn] at hmark
      obtain ⟨rfl, hstop⟩ := Prod.mk.inj hmark
      refine ⟨1, .stop hn ?_⟩
      cases hc : n.isCovered with
      | true => exact Or.inl rfl
      | false =>
        rw [hc, if_neg Bool.false_ne_true] at hstop
        exact Or.inr hstop
  | case2 nodes b marked c hmark ih =>
    cases hn : nodes[b.node]? with
    | none =>
      rw [mark_of_none hn] at hmark
      cases hmark
    | some n =>
      rw [mark_of_some hn] at hmark
      obtain ⟨rfl, hnext⟩ := Prod.mk.inj hmark
      obtain ⟨k, hk⟩ := ih
      cases hc : n.isCovered with
      | true =>
        rw [hc, if_pos rfl] at hnext
        cases hnext
      | false =>
        rw [hc, if_neg Bool.false_ne_true] at hnext
        exact ⟨k + 1, .next hn hc hnext hk⟩

namespace Walks

/-- There is one way to walk back. -/
theorem unique (h : Walks nodes b k final) (h' : Walks nodes b j final') :
    k = j ∧ final = final' := by
  induction h generalizing j final' with
  | outside hn =>
    cases h' with
    | outside _ => exact ⟨rfl, rfl⟩
    | stop hn' _ | next hn' _ _ _ => simp [hn] at hn'
  | stop hn hstop =>
    cases h' with
    | outside hn' => simp [hn] at hn'
    | stop hn' _ =>
      cases Option.some.inj (hn.symm.trans hn')
      exact ⟨rfl, rfl⟩
    | next hn' hunc hlink _ =>
      cases Option.some.inj (hn.symm.trans hn')
      simp [hunc, hlink] at hstop
  | next hn hunc hlink _ ih =>
    cases h' with
    | outside hn' => simp [hn] at hn'
    | stop hn' hstop =>
      cases Option.some.inj (hn.symm.trans hn')
      simp [hunc, hlink] at hstop
    | next hn' _ hlink' hrest =>
      cases Option.some.inj (hn.symm.trans hn')
      cases Option.some.inj (hlink.symm.trans hlink')
      obtain ⟨rfl, rfl⟩ := ih hrest
      exact ⟨rfl, rfl⟩

/-- Every round but the last covers an instruction. -/
theorem rounds_le (h : Walks nodes b k final) : k + uncovered final ≤ uncovered nodes + 1 := by
  induction h with
  | outside _ => omega
  | stop hn _ =>
    have hcover := uncovered_cover hn
    omega
  | next hn hunc _ _ ih =>
    have hcover := uncovered_cover hn
    rw [hunc, if_neg Bool.false_ne_true] at hcover
    omega

theorem taken (h : Walks nodes b k final) {c : Branch} (hc : Taken nodes c) : Taken final c := by
  induction h with
  | outside _ => exact hc
  | stop hn _ => exact taken_of_taken_cover hn hc
  | next hn _ _ _ ih => exact ih (taken_of_taken_cover hn hc)

end Walks

/-- Whatever the links, the walk back from any branch ends after at most one round more than there
are uncovered instructions, in the nodes that spreading leaves, and takes no coverage away. -/
theorem spread_ends (nodes : Array Node) (b : Branch) :
    ∃ k ≤ uncovered nodes + 1,
      (∀ j final, Walks nodes b j final ↔ j = k ∧ final = spread nodes b) ∧
      ∀ id, Covered nodes id → Covered (spread nodes b) id := by
  obtain ⟨k, hk⟩ := exists_walks_spread nodes b
  refine ⟨k, ?_, fun j final ↦ ⟨fun h ↦ h.unique hk, ?_⟩, fun id ⟨i, hi⟩ ↦ ⟨i, hk.taken hi⟩⟩
  · have hle := hk.rounds_le
    omega
  · rintro ⟨rfl, rfl⟩
    exact hk

end ProbeCoverage
