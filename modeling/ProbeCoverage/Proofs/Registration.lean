import ProbeCoverage.Proofs.Spread

/-!
# Registering branches

A registration either fails or changes the nodes in a way that is written down here without the
monad. Each of these changes keeps coverage closed under the links.
-/

namespace ProbeCoverage

/-- A way for control to flow: through the branch `via` to the instruction `target`. -/
structure Edge where
  via : Branch
  target : NodeId
deriving DecidableEq

def addBranch (nodes : Array Node) (id : NodeId) : Array Node :=
  nodes.modify id fun n ↦ { n with branches := n.branches + 1 }

def attach (nodes : Array Node) (e : Edge) : Array Node :=
  (addBranch nodes e.via.node).modify e.target ({ · with link := some e.via })

def coveredAt (nodes : Array Node) (id : NodeId) : Bool := nodes[id]?.any (·.isCovered)

def spreadIf (taken : Bool) (nodes : Array Node) (b : Branch) : Array Node :=
  if taken then spread nodes b else nodes

/-- A branch with a probe, which fired or not. -/
def direct (nodes : Array Node) (b : Branch) (fired : Bool) : Array Node :=
  spreadIf fired (addBranch nodes b.node) b

/-- A branch that is taken if its target is covered. -/
def connect (nodes : Array Node) (e : Edge) : Array Node :=
  spreadIf (coveredAt (attach nodes e) e.target) (attach nodes e) e.via

/-- Another branch of `id` can be counted. -/
def Room (nodes : Array Node) (id : NodeId) : Prop :=
  ∃ n, nodes[id]? = some n ∧ n.branches + 1 < countBound

theorem Room.lt_size {nodes : Array Node} {id : NodeId} (h : Room nodes id) : id < nodes.size := by
  obtain ⟨n, hn, -⟩ := h
  exact (Array.getElem?_eq_some_iff.mp hn).1

namespace FlowGraph

theorem countBranch_eq_ok_iff {id : NodeId} {g g' : FlowGraph} :
    (countBranch id).run g = .ok () g' ↔
      Room g.nodes id ∧ g' = { g with nodes := addBranch g.nodes id } := by
  change countBranch id g = _ ↔ _
  unfold countBranch
  split
  next hnone => simp [Room, hnone]
  next n hn =>
    have hmod : addBranch g.nodes id =
        g.nodes.modify id ({ · with branches := n.branches + 1 }) := by
      apply Array.ext_getElem?
      intro i
      simp only [addBranch, Array.getElem?_modify]
      split
      next heq =>
        subst heq
        simp [hn]
      next => rfl
    simp only [Room, hn, Option.some.injEq, exists_eq_left', addBelow, hmod]
    by_cases hlt : n.branches + 1 < countBound
    · simp [hlt, modifyNode, eq_comm]
    · simp [hlt]

theorem register_eq_ok_iff {id : NodeId} {fired : Bool} {branch : Nat} {g g' : FlowGraph} :
    (register id fired branch).run g = .ok () g' ↔
      Room g.nodes id ∧ g' = { g with nodes := direct g.nodes ⟨id, branch⟩ fired } := by
  unfold register
  rw [EStateM.run_bind]
  cases hcount : (countBranch id).run g with
  | error e g₁ =>
    have hroom : ¬ Room g.nodes id := fun h ↦ by
      have := countBranch_eq_ok_iff.mpr ⟨h, rfl⟩
      simp [hcount] at this
    simp [hroom]
  | ok u g₁ =>
    obtain ⟨hroom, rfl⟩ := countBranch_eq_ok_iff.mp hcount
    cases fired
    · simp [hroom, direct, spreadIf, eq_comm]
    · simp [hroom, direct, spreadIf, spreadFrom, eq_comm]

theorem add_eq_ok_iff {handle : Handle} {node : Node} {id : NodeId} {g g' : FlowGraph} :
    (add handle node).run g = .ok id g' ↔
      ¬ handle ∈ g.ids ∧ id = g.nodes.size ∧
        g' = { g with
          nodes := g.nodes.push node
          handles := g.handles.push handle
          ids := g.ids.insert handle g.nodes.size } := by
  change add handle node g = _ ↔ _
  unfold add
  by_cases h : handle ∈ g.ids
  · simp [h]
  · simp [h, eq_comm]

theorem run_add_of_mem {handle : Handle} {g : FlowGraph} (h : handle ∈ g.ids) (node : Node) :
    (add handle node).run g = .error (.duplicateInstruction handle) g := by
  change add handle node g = _
  rw [add, if_pos h]

theorem requireId_eq {id : NodeId} {g : FlowGraph} :
    (requireId id).run g =
      if id < g.nodes.size then .ok () g else .error (.unknownInstruction id) g := by
  unfold requireId
  by_cases h : id < g.nodes.size
  · simp [h, size]
  · simp [h, size]

theorem registerEdge_eq_ok_iff {source target : NodeId} {branch : Nat} {g g' : FlowGraph} :
    (registerEdge source target branch).run g = .ok () g' ↔
      Room g.nodes source ∧ target < g.nodes.size ∧
        g' = { g with nodes := connect g.nodes ⟨⟨source, branch⟩, target⟩ } := by
  unfold registerEdge
  simp only [EStateM.run_bind, requireId_eq]
  by_cases hs : source < g.nodes.size
  · by_cases ht : target < g.nodes.size
    · simp only [hs, ht, if_true, true_and]
      cases hcount : (countBranch source).run g with
      | error e g₁ =>
        have hroom : ¬ Room g.nodes source := fun h ↦ by
          have := countBranch_eq_ok_iff.mpr ⟨h, rfl⟩
          simp [hcount] at this
        simp [hroom]
      | ok u g₁ =>
        obtain ⟨hroom, rfl⟩ := countBranch_eq_ok_iff.mp hcount
        simp only [hroom, true_and, EStateM.run_modify, EStateM.run_get]
        have hnodes : (modifyNode { g with nodes := addBranch g.nodes source } target
            ({ · with link := some ⟨source, branch⟩ })).isCovered target =
            coveredAt (attach g.nodes ⟨⟨source, branch⟩, target⟩) target := rfl
        rw [hnodes]
        cases hc : coveredAt (attach g.nodes ⟨⟨source, branch⟩, target⟩) target with
        | false =>
          simp only [connect, hc, spreadIf, Bool.false_eq_true, if_false, EStateM.run_pure,
            EStateM.Result.ok.injEq, true_and]
          exact eq_comm
        | true =>
          simp only [connect, hc, spreadIf, if_true, spreadFrom, EStateM.run_modify,
            EStateM.Result.ok.injEq, true_and]
          exact eq_comm
    · simp [hs, ht]
  · have hroom : ¬ Room g.nodes source := fun h ↦ hs h.lt_size
    simp [hs, hroom]

end FlowGraph

/-! ## What the changes keep -/

theorem map_modify {β : Type} {f : Node → Node} {g : Node → β} {f' : β → β}
    (h : ∀ n, g (f n) = f' (g n)) (nodes : Array Node) (id : NodeId) :
    (nodes.modify id f).map g = (nodes.map g).modify id f' := by
  apply Array.ext_getElem?
  intro i
  simp only [Array.getElem?_map, Array.getElem?_modify]
  split
  next => simp [Function.comp_def, h]
  next => rfl

section Facts

variable {nodes : Array Node} {id i : NodeId} {b : Branch} {P : Node → Prop}

theorem exists_getElem?_modify {f : Node → Node} (h : ∀ n, P (f n) ↔ P n) :
    (∃ n, (nodes.modify id f)[i]? = some n ∧ P n) ↔ ∃ n, nodes[i]? = some n ∧ P n := by
  rw [Array.getElem?_modify]
  split
  next => simp [h]
  next => rfl

theorem exists_getElem?_push {n : Node} (h : ¬ P n) :
    (∃ m, (nodes.push n)[i]? = some m ∧ P m) ↔ ∃ m, nodes[i]? = some m ∧ P m := by
  rw [Array.getElem?_push]
  split
  next heq => simp [heq, h]
  next => rfl

theorem taken_modify {f : Node → Node} (h : ∀ n, (f n).covered = n.covered) :
    Taken (nodes.modify id f) b ↔ Taken nodes b := by
  apply exists_getElem?_modify
  intro n
  rw [h]

theorem linked_modify {f : Node → Node} (h : ∀ n, (f n).link = n.link) :
    Linked (nodes.modify id f) i b ↔ Linked nodes i b := by
  apply exists_getElem?_modify
  intro n
  rw [h]

theorem taken_push {n : Node} (h : n.covered = ∅) : Taken (nodes.push n) b ↔ Taken nodes b := by
  apply exists_getElem?_push
  rw [h]
  exact BranchSet.not_mem_empty b.index

theorem linked_push {n : Node} (h : n.link = none) :
    Linked (nodes.push n) id b ↔ Linked nodes id b := by
  apply exists_getElem?_push
  simp [h]

end Facts

/-- A view of an instruction that registrations do not change. -/
def Static {β : Type} (f : Node → β) : Prop :=
  ∀ n k c l, f { n with branches := k, covered := c, link := l } = f n

/-- What does not look at the coverage does not change when it spreads. -/
theorem map_spreadIf {β : Type} {f : Node → β} (hf : ∀ n, f n.outline = f n) (taken : Bool)
    (nodes : Array Node) (b : Branch) : (spreadIf taken nodes b).map f = nodes.map f := by
  have hout : ∀ a : Array Node, a.map f = (outlines a).map f := fun a ↦ by
    rw [outlines, Array.map_map]
    exact Array.map_congr_left fun n _ ↦ (hf n).symm
  cases taken with
  | false => rfl
  | true =>
    change (spread nodes b).map f = _
    rw [hout, outlines_spread, ← hout]

theorem Static.map_spreadIf {β : Type} {f : Node → β} (hf : Static f) (taken : Bool)
    (nodes : Array Node) (b : Branch) : (spreadIf taken nodes b).map f = nodes.map f :=
  ProbeCoverage.map_spreadIf (fun n ↦ hf n n.branches ∅ n.link) taken nodes b

theorem Static.map_modify {β : Type} {f : Node → β} {g : Node → Node} (h : ∀ n, f (g n) = f n)
    (nodes : Array Node) (id : NodeId) : (nodes.modify id g).map f = nodes.map f := by
  have hmap : (nodes.modify id g).map f = (nodes.map f).modify id fun x ↦ x :=
    ProbeCoverage.map_modify h nodes id
  rw [hmap]
  apply Array.ext'
  rw [Array.toList_modify]
  exact List.modify_id _ _

theorem Static.map_direct {β : Type} {f : Node → β} (hf : Static f) (nodes : Array Node)
    (b : Branch) (fired : Bool) : (direct nodes b fired).map f = nodes.map f := by
  rw [direct, hf.map_spreadIf]
  exact Static.map_modify (fun n ↦ hf n (n.branches + 1) n.covered n.link) nodes b.node

theorem Static.map_connect {β : Type} {f : Node → β} (hf : Static f) (nodes : Array Node)
    (e : Edge) : (connect nodes e).map f = nodes.map f := by
  rw [connect, hf.map_spreadIf, attach,
    Static.map_modify fun n ↦ hf n n.branches n.covered (some e.via)]
  exact Static.map_modify (fun n ↦ hf n (n.branches + 1) n.covered n.link) nodes e.via.node

theorem Static.map_foldl_connect {β : Type} {f : Node → β} (hf : Static f) (nodes : Array Node)
    (es : List Edge) : (es.foldl connect nodes).map f = nodes.map f := by
  induction es generalizing nodes with
  | nil => rfl
  | cons e es ih => rw [List.foldl_cons, ih, hf.map_connect]

/-! ## Branches and links -/

theorem branches_addBranch (nodes : Array Node) (id : NodeId) :
    (addBranch nodes id).map Node.branches = (nodes.map Node.branches).modify id (· + 1) := by
  apply map_modify
  intro n
  rfl

theorem link_addBranch (nodes : Array Node) (id : NodeId) :
    (addBranch nodes id).map Node.link = nodes.map Node.link := by
  apply Static.map_modify
  intro n
  rfl

theorem branches_direct (nodes : Array Node) (b : Branch) (fired : Bool) :
    (direct nodes b fired).map Node.branches =
      (nodes.map Node.branches).modify b.node (· + 1) := by
  rw [direct, map_spreadIf fun _ ↦ rfl, branches_addBranch]

theorem link_direct (nodes : Array Node) (b : Branch) (fired : Bool) :
    (direct nodes b fired).map Node.link = nodes.map Node.link := by
  rw [direct, map_spreadIf fun _ ↦ rfl, link_addBranch]

theorem branches_connect (nodes : Array Node) (e : Edge) :
    (connect nodes e).map Node.branches =
      (nodes.map Node.branches).modify e.via.node (· + 1) := by
  rw [connect, map_spreadIf fun _ ↦ rfl, ← branches_addBranch]
  apply Static.map_modify
  intro n
  rfl

theorem link_connect (nodes : Array Node) (e : Edge) : (connect nodes e).map Node.link =
    (nodes.map Node.link).modify e.target fun _ ↦ some e.via := by
  rw [connect, map_spreadIf fun _ ↦ rfl, ← link_addBranch nodes e.via.node]
  apply map_modify
  intro n
  rfl

theorem static_probe : Static Node.probe := fun _ _ _ _ ↦ rfl

theorem static_signature : Static Node.signature := fun _ _ _ _ ↦ rfl

theorem Static.size_eq {a b : Array Node} {β : Type} {f : Node → β} (h : a.map f = b.map f) :
    a.size = b.size := by
  simpa using congrArg Array.size h

@[simp] theorem taken_addBranch {nodes : Array Node} {id : NodeId} {b : Branch} :
    Taken (addBranch nodes id) b ↔ Taken nodes b :=
  taken_modify fun _ ↦ rfl

@[simp] theorem linked_addBranch {nodes : Array Node} {id i : NodeId} {b : Branch} :
    Linked (addBranch nodes id) i b ↔ Linked nodes i b :=
  linked_modify fun _ ↦ rfl

@[simp] theorem size_addBranch (nodes : Array Node) (id : NodeId) :
    (addBranch nodes id).size = nodes.size := by
  simp [addBranch]

@[simp] theorem taken_attach {nodes : Array Node} {e : Edge} {b : Branch} :
    Taken (attach nodes e) b ↔ Taken nodes b :=
  Iff.trans (taken_modify (f := fun n ↦ { n with link := some e.via }) fun _ ↦ rfl)
    taken_addBranch

@[simp] theorem size_attach (nodes : Array Node) (e : Edge) :
    (attach nodes e).size = nodes.size := by
  simp [attach]

theorem linked_attach {nodes : Array Node} {e : Edge} {id : NodeId} {b : Branch} :
    Linked (attach nodes e) id b ↔
      if id = e.target then b = e.via ∧ id < nodes.size else Linked nodes id b := by
  by_cases hid : id = e.target
  · subst hid
    simp only [Linked, attach, Array.getElem?_modify, if_true]
    cases hn : (addBranch nodes e.via.node)[e.target]? with
    | none =>
      have hge : ¬ e.target < nodes.size := by
        simpa using Array.getElem?_eq_none_iff.mp hn
      simp [hge]
    | some n =>
      have hlt : e.target < nodes.size := by
        simpa using (Array.getElem?_eq_some_iff.mp hn).1
      simp [hlt, eq_comm]
  · rw [if_neg hid]
    have hadd : Linked (addBranch nodes e.via.node) id b ↔ Linked nodes id b := linked_addBranch
    rw [← hadd]
    simp [Linked, attach, Array.getElem?_modify, Ne.symm hid]

theorem coveredAt_eq_true_iff {nodes : Array Node} {id : NodeId} :
    coveredAt nodes id = true ↔ Covered nodes id := by
  unfold coveredAt
  cases hn : nodes[id]? with
  | none => simp [Covered, Taken, hn]
  | some n => simp [covered_iff hn]

theorem covered_congr {a b : Array Node} (h : ∀ c, Taken a c ↔ Taken b c) {id : NodeId} :
    Covered a id ↔ Covered b id :=
  exists_congr fun i ↦ h ⟨id, i⟩

/-! ## Coverage stays closed -/

/-- Coverage is closed under the links, and these stay inside. -/
structure Settled (nodes : Array Node) : Prop where
  closed : Closed nodes
  inside : LinksInside nodes

theorem settled_empty : Settled #[] where
  closed _ _ hid _ := by simp [Covered, Taken] at hid
  inside _ _ h := by simp [Linked] at h

/-- Whatever else changes, coverage stays closed if neither branches taken nor links change. -/
theorem Settled.congr {a b : Array Node} (h : Settled a) (htaken : ∀ c, Taken b c ↔ Taken a c)
    (hlinked : ∀ id c, Linked b id c ↔ Linked a id c) (hsize : a.size ≤ b.size) :
    Settled b where
  closed id c hid hc :=
    (htaken c).mpr (h.closed id c ((covered_congr htaken).mp hid) ((hlinked id c).mp hc))
  inside id c hc := Nat.lt_of_lt_of_le (h.inside id c ((hlinked id c).mp hc)) hsize

theorem settled_addBranch {nodes : Array Node} (h : Settled nodes) (id : NodeId) :
    Settled (addBranch nodes id) :=
  h.congr (fun _ ↦ taken_addBranch) (fun _ _ ↦ linked_addBranch) (by simp)

/-- The new link leads away from the target alone. -/
theorem closedBut_attach {nodes : Array Node} (h : Settled nodes) (e : Edge) :
    ClosedBut (attach nodes e) e.via := by
  intro id c hid hc
  rw [linked_attach] at hc
  rw [covered_congr fun _ ↦ taken_attach] at hid
  split at hc
  next => exact Or.inl hc.1
  next => exact Or.inr (taken_attach.mpr (h.closed id c hid hc))

theorem linksInside_attach {nodes : Array Node} (h : Settled nodes) {e : Edge}
    (he : e.via.node < nodes.size) : LinksInside (attach nodes e) := by
  intro id c hc
  rw [linked_attach] at hc
  rw [size_attach]
  split at hc
  next =>
    rw [hc.1]
    exact he
  next => exact h.inside id c hc

theorem settled_spreadIf {nodes : Array Node} {b : Branch} {taken : Bool}
    (hbut : ClosedBut nodes b) (hin : LinksInside nodes) (hb : b.node < nodes.size)
    (hidle : taken = false → Closed nodes) : Settled (spreadIf taken nodes b) := by
  cases taken with
  | false => exact ⟨hidle rfl, hin⟩
  | true =>
    refine ⟨closed_spread hbut hin hb, fun id c hc ↦ ?_⟩
    have hlt := hin id c (linked_of_outlines (outlines_spread nodes b) hc)
    simpa [spreadIf] using hlt

theorem taken_spreadIf {nodes : Array Node} {b : Branch} (hbut : ClosedBut nodes b) (taken : Bool)
    (c : Branch) : Taken (spreadIf taken nodes b) c ↔
      Taken nodes c ∨ taken = true ∧ Trail nodes b c ∧ c.node < nodes.size := by
  cases taken with
  | false => simp [spreadIf]
  | true => simpa [spreadIf] using taken_spread hbut

theorem settled_direct {nodes : Array Node} (h : Settled nodes) {b : Branch} (fired : Bool)
    (hb : b.node < nodes.size) : Settled (direct nodes b fired) :=
  have hadd := settled_addBranch h b.node
  settled_spreadIf (hadd.closed.closedBut b) hadd.inside (by simpa using hb) fun _ ↦ hadd.closed

theorem settled_connect {nodes : Array Node} (h : Settled nodes) {e : Edge}
    (he : e.via.node < nodes.size) : Settled (connect nodes e) := by
  refine settled_spreadIf (closedBut_attach h e) (linksInside_attach h he) (by simpa using he) ?_
  intro hunc id c hid hc
  rcases closedBut_attach h e id c hid hc with rfl | hc'
  · rw [linked_attach] at hc
    split at hc
    next heq =>
      subst heq
      rw [← coveredAt_eq_true_iff, hunc] at hid
      exact absurd hid Bool.false_ne_true
    next =>
      rw [covered_congr fun _ ↦ taken_attach] at hid
      exact taken_attach.mpr (h.closed id _ hid hc)
  · exact hc'

theorem taken_direct {nodes : Array Node} (h : Settled nodes) {b c : Branch}
    {fired : Bool} : Taken (direct nodes b fired) c ↔
      Taken nodes c ∨ fired = true ∧ Trail (addBranch nodes b.node) b c ∧ c.node < nodes.size := by
  have hs := taken_spreadIf ((settled_addBranch h b.node).closed.closedBut b) fired c
  rw [taken_addBranch, size_addBranch] at hs
  exact hs

theorem taken_connect {nodes : Array Node} (h : Settled nodes) {e : Edge} {c : Branch} :
    Taken (connect nodes e) c ↔
      Taken nodes c ∨ Covered nodes e.target ∧ Trail (attach nodes e) e.via c ∧
        c.node < nodes.size := by
  have hs := taken_spreadIf (closedBut_attach h e) (coveredAt (attach nodes e) e.target) c
  rw [coveredAt_eq_true_iff, covered_congr fun _ ↦ taken_attach, taken_attach, size_attach] at hs
  exact hs

theorem linked_spreadIf {taken : Bool} {nodes : Array Node} {b c : Branch} {id : NodeId} :
    Linked (spreadIf taken nodes b) id c ↔ Linked nodes id c := by
  cases taken with
  | false => exact Iff.rfl
  | true =>
    exact ⟨linked_of_outlines (outlines_spread nodes b),
      linked_of_outlines (outlines_spread nodes b).symm⟩

theorem linked_direct {nodes : Array Node} {b c : Branch} {fired : Bool} {id : NodeId} :
    Linked (direct nodes b fired) id c ↔ Linked nodes id c :=
  linked_spreadIf.trans linked_addBranch

theorem linked_connect {nodes : Array Node} {e : Edge} {c : Branch} {id : NodeId} :
    Linked (connect nodes e) id c ↔ Linked (attach nodes e) id c :=
  linked_spreadIf

end ProbeCoverage
