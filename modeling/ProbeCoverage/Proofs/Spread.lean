import ProbeCoverage.FlowGraph
import ProbeCoverage.Proofs.BranchSet

/-!
# What spreading covers

Spreading a taken branch stops at the first instruction that was covered before. If coverage was
closed under the links, nothing is lost by that: spreading takes exactly the branches on the trail
of links, however the trail loops, and coverage is closed again.
-/

namespace ProbeCoverage

def Taken (nodes : Array Node) (b : Branch) : Prop :=
  ∃ n, nodes[b.node]? = some n ∧ b.index ∈ n.covered

instance (nodes : Array Node) (b : Branch) : Decidable (Taken nodes b) :=
  decidable_of_iff (nodes[b.node]?.any fun n ↦ decide (b.index ∈ n.covered)) (by
    simp only [Option.any_eq_true, decide_eq_true_eq]
    rfl)

def Covered (nodes : Array Node) (id : NodeId) : Prop := ∃ i, Taken nodes ⟨id, i⟩

/-- Control enters the instruction `id` through the branch `b`. -/
def Linked (nodes : Array Node) (id : NodeId) (b : Branch) : Prop :=
  ∃ n, nodes[id]? = some n ∧ n.link = some b

/-- The branches met on the way back from `b` along the links. -/
inductive Trail (nodes : Array Node) (b : Branch) : Branch → Prop
  | start : Trail nodes b b
  | step {c d : Branch} : Trail nodes b c → Linked nodes c.node d → Trail nodes b d

/-- A covered instruction has passed its coverage on. -/
def Closed (nodes : Array Node) : Prop :=
  ∀ id c, Covered nodes id → Linked nodes id c → Taken nodes c

/-- As `Closed`, but `b` itself need not be taken yet. -/
def ClosedBut (nodes : Array Node) (b : Branch) : Prop :=
  ∀ id c, Covered nodes id → Linked nodes id c → c = b ∨ Taken nodes c

/-- Links lead to instructions of the array. -/
def LinksInside (nodes : Array Node) : Prop :=
  ∀ id c, Linked nodes id c → c.node < nodes.size

theorem Closed.closedBut {nodes : Array Node} (h : Closed nodes) (b : Branch) :
    ClosedBut nodes b :=
  fun id c hid hc ↦ Or.inr (h id c hid hc)

theorem Taken.covered {nodes : Array Node} {b : Branch} (h : Taken nodes b) :
    Covered nodes b.node := ⟨b.index, h⟩

theorem covered_iff {nodes : Array Node} {id : NodeId} {n : Node} (hn : nodes[id]? = some n) :
    Covered nodes id ↔ n.isCovered = true := by
  rw [Node.isCovered_iff]
  constructor
  · rintro ⟨i, m, hm, hi⟩
    obtain rfl : n = m := Option.some.inj (hn.symm.trans hm)
    exact ⟨i, hi⟩
  · rintro ⟨i, hi⟩
    exact ⟨i, n, hn, hi⟩

theorem Linked.unique {nodes : Array Node} {id : NodeId} {b c : Branch} (hb : Linked nodes id b)
    (hc : Linked nodes id c) : b = c := by
  obtain ⟨n, hn, hnb⟩ := hb
  obtain ⟨m, hm, hmc⟩ := hc
  obtain rfl : n = m := Option.some.inj (hn.symm.trans hm)
  exact Option.some.inj (hnb.symm.trans hmc)

theorem Linked.lt_size {nodes : Array Node} {id : NodeId} {b : Branch} (h : Linked nodes id b) :
    id < nodes.size := by
  obtain ⟨n, hn, -⟩ := h
  exact (Array.getElem?_eq_some_iff.mp hn).1

/-- The trail from `b` is `b` and the trail from the branch that leads to its instruction. -/
theorem trail_iff_of_linked {nodes : Array Node} {b c e : Branch} (h : Linked nodes b.node c) :
    Trail nodes b e ↔ e = b ∨ Trail nodes c e := by
  constructor
  · intro ht
    induction ht with
    | start => exact Or.inl rfl
    | step _ hdf ih =>
      right
      rcases ih with rfl | hd
      · rw [hdf.unique h]
        exact .start
      · exact hd.step hdf
  · rintro (rfl | ht)
    · exact .start
    · induction ht with
      | start => exact .step .start h
      | step _ hdf ih => exact ih.step hdf

/-! ## Arrays that differ in coverage only -/

def outlines (nodes : Array Node) : Array Node := nodes.map Node.outline

theorem size_eq_of_outlines {a b : Array Node} (h : outlines a = outlines b) :
    a.size = b.size := by
  simpa [outlines] using congrArg Array.size h

theorem getElem?_of_outlines {a b : Array Node} (h : outlines a = outlines b) {id : NodeId}
    {n : Node} (hn : a[id]? = some n) : ∃ m, b[id]? = some m ∧ n.outline = m.outline := by
  have hget : (outlines a)[id]? = (outlines b)[id]? := by rw [h]
  simp only [outlines, Array.getElem?_map, hn, Option.map_some] at hget
  obtain ⟨m, hm, heq⟩ := Option.map_eq_some_iff.mp hget.symm
  exact ⟨m, hm, heq.symm⟩

theorem linked_of_outlines {a b : Array Node} (h : outlines a = outlines b) {id : NodeId}
    {c : Branch} (hc : Linked a id c) : Linked b id c := by
  obtain ⟨n, hn, hlink⟩ := hc
  obtain ⟨m, hm, heq⟩ := getElem?_of_outlines h hn
  exact ⟨m, hm, by rw [← hlink]; exact (congrArg Node.link heq).symm⟩

theorem trail_of_outlines {a b : Array Node} (h : outlines a = outlines b) {c d : Branch}
    (ht : Trail a c d) : Trail b c d := by
  induction ht with
  | start => exact .start
  | step _ hlink ih => exact ih.step (linked_of_outlines h hlink)

/-- Instructions are determined by their outlines and by the branches taken. -/
theorem ext_outlines {a b : Array Node} (h : outlines a = outlines b)
    (htaken : ∀ c, Taken a c ↔ Taken b c) : a = b := by
  apply Array.ext_getElem?
  intro id
  cases hn : a[id]? with
  | none =>
    have hle : b.size ≤ id := by
      rw [← size_eq_of_outlines h]
      exact Array.getElem?_eq_none_iff.mp hn
    exact (Array.getElem?_eq_none hle).symm
  | some n =>
    obtain ⟨m, hm, hout⟩ := getElem?_of_outlines h hn
    rw [hm]
    refine congrArg some (Node.ext_outline hout fun i ↦ ?_)
    have hi := htaken ⟨id, i⟩
    simpa [Taken, hn, hm] using hi

/-! ## One mark -/

theorem outlines_mark (nodes : Array Node) (b : Branch) :
    outlines (mark nodes b).1 = outlines nodes := by
  unfold mark
  split
  next n hn =>
    apply Array.ext_getElem?
    intro id
    simp only [outlines, Array.getElem?_map, Array.getElem?_setIfInBounds]
    split
    next heq =>
      obtain ⟨hlt, hget⟩ := Array.getElem?_eq_some_iff.mp hn
      subst heq
      simp [hlt, hget]
    next => rfl
  next => rfl

theorem taken_mark {nodes : Array Node} {b c : Branch} :
    Taken (mark nodes b).1 c ↔ Taken nodes c ∨ c = b ∧ b.node < nodes.size := by
  unfold mark
  split
  next n hn =>
    have hlt : b.node < nodes.size := (Array.getElem?_eq_some_iff.mp hn).1
    simp only [Taken, Array.getElem?_setIfInBounds, hlt, and_true, if_true]
    by_cases hnode : b.node = c.node
    · have hc : c = b ↔ c.index = b.index := by
        cases b
        cases c
        simp_all
      rw [← hnode]
      simp [hn, hc, or_comm]
    · have hne : c ≠ b := fun h ↦ hnode (h ▸ rfl)
      simp [hnode, hne]
  next hnone =>
    have hge : ¬ b.node < nodes.size := Nat.not_lt.mpr (Array.getElem?_eq_none_iff.mp hnone)
    simp [hge]

theorem mark_snd_eq_some_iff {nodes : Array Node} {b c : Branch} :
    (mark nodes b).2 = some c ↔ ¬ Covered nodes b.node ∧ Linked nodes b.node c := by
  unfold mark
  split
  next n hn =>
    rw [covered_iff hn]
    simp [Linked, hn]
  next hnone => simp [Linked, hnone]

/-! ## The whole walk -/

@[simp] theorem outlines_spread (nodes : Array Node) (b : Branch) :
    outlines (spread nodes b) = outlines nodes := by
  fun_induction spread nodes b with
  | case1 nodes b marked h =>
    have hm := outlines_mark nodes b
    rwa [h] at hm
  | case2 nodes b marked c h ih =>
    have hm := outlines_mark nodes b
    rw [h] at hm
    exact ih.trans hm

@[simp] theorem size_spread (nodes : Array Node) (b : Branch) :
    (spread nodes b).size = nodes.size :=
  size_eq_of_outlines (outlines_spread nodes b)

/-- Where the walk stops, the rest of the trail was taken before. -/
theorem taken_of_trail_of_stop {nodes : Array Node} {b e : Branch} (h : ClosedBut nodes b)
    (hstop : ∀ c, ¬ (¬ Covered nodes b.node ∧ Linked nodes b.node c))
    (ht : Trail nodes b e) : Taken nodes e ∨ e = b := by
  induction ht with
  | start => exact Or.inr rfl
  | @step c d _ hlink ih =>
    have hcov : Covered nodes c.node := by
      rcases ih with hc | rfl
      · exact hc.covered
      · by_contra hunc
        exact hstop d ⟨hunc, hlink⟩
    exact (h c.node d hcov hlink).symm

/-- Marking the first branch leaves the rest of the trail to be taken. -/
theorem ClosedBut.mark {nodes : Array Node} {b c : Branch} (h : ClosedBut nodes b)
    (hc : Linked nodes b.node c) : ClosedBut (mark nodes b).1 c := by
  intro id d hid hd
  replace hd := linked_of_outlines (outlines_mark nodes b) hd
  obtain ⟨i, hi⟩ := hid
  rcases taken_mark.mp hi with hi | ⟨heq, -⟩
  · right
    rcases h id d ⟨i, hi⟩ hd with rfl | hd
    · exact taken_mark.mpr (Or.inr ⟨rfl, hc.lt_size⟩)
    · exact taken_mark.mpr (Or.inl hd)
  · left
    obtain rfl : id = b.node := congrArg Branch.node heq
    exact hd.unique hc

theorem taken_spread {nodes : Array Node} {b e : Branch} (h : ClosedBut nodes b) :
    Taken (spread nodes b) e ↔ Taken nodes e ∨ Trail nodes b e ∧ e.node < nodes.size := by
  fun_induction spread nodes b with
  | case1 nodes b marked hmark =>
    have hstop : ∀ c, ¬ (¬ Covered nodes b.node ∧ Linked nodes b.node c) := fun c hc ↦ by
      have := mark_snd_eq_some_iff.mpr hc
      simp [hmark] at this
    have htaken := @taken_mark nodes b e
    rw [hmark] at htaken
    rw [htaken]
    constructor
    · rintro (he | ⟨rfl, hlt⟩)
      · exact Or.inl he
      · exact Or.inr ⟨.start, hlt⟩
    · rintro (he | ⟨ht, hlt⟩)
      · exact Or.inl he
      · rcases taken_of_trail_of_stop h hstop ht with he | rfl
        · exact Or.inl he
        · exact Or.inr ⟨rfl, hlt⟩
  | case2 nodes b marked c hmark ih =>
    have hnext : (mark nodes b).2 = some c := by rw [hmark]
    obtain ⟨hunc, hlink⟩ := mark_snd_eq_some_iff.mp hnext
    have hout : outlines marked = outlines nodes := by
      have := outlines_mark nodes b
      rwa [hmark] at this
    have hclosed : ClosedBut marked c := by
      have := h.mark hlink
      rwa [hmark] at this
    have htaken := @taken_mark nodes b e
    rw [hmark] at htaken
    rw [ih hclosed, htaken, size_eq_of_outlines hout]
    have hsplit : Trail nodes b e ↔ e = b ∨ Trail marked c e :=
      (trail_iff_of_linked hlink).trans
        (or_congr Iff.rfl ⟨trail_of_outlines hout.symm, trail_of_outlines hout⟩)
    rw [hsplit]
    constructor
    · rintro ((he | ⟨rfl, -⟩) | ⟨ht, he⟩)
      · exact Or.inl he
      · exact Or.inr ⟨Or.inl rfl, hlink.lt_size⟩
      · exact Or.inr ⟨Or.inr ht, he⟩
    · rintro (he | ⟨rfl | ht, he⟩)
      · exact Or.inl (Or.inl he)
      · exact Or.inl (Or.inr ⟨rfl, he⟩)
      · exact Or.inr ⟨ht, he⟩

/-- Spreading restores what it needs. -/
theorem closed_spread {nodes : Array Node} {b : Branch} (h : ClosedBut nodes b)
    (hin : LinksInside nodes) (hb : b.node < nodes.size) : Closed (spread nodes b) := by
  intro id c hid hlink
  replace hlink := linked_of_outlines (outlines_spread nodes b) hlink
  have hlt := hin id c hlink
  obtain ⟨i, hi⟩ := hid
  rw [taken_spread h] at hi ⊢
  rcases hi with hi | ⟨ht, -⟩
  · rcases h id c ⟨i, hi⟩ hlink with rfl | hc
    · exact Or.inr ⟨.start, hb⟩
    · exact Or.inl hc
  · exact Or.inr ⟨ht.step hlink, hlt⟩

end ProbeCoverage
