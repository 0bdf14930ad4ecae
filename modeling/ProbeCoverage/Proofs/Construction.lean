import ProbeCoverage.Proofs.Reachability

/-!
# Building a graph call by call

An instruction keeps one link. An edge to an instruction that is not covered takes the link over
from the edge registered there before, which is then forgotten: the branch of that edge is not taken
when the instruction becomes covered. What a graph has taken is exactly what follows from the
branches that fired by way of the edges that were not overtaken so.
-/

namespace ProbeCoverage

namespace FlowGraph

/-- A call that adds to a graph: a fresh instruction, a branch with a probe, or an edge. -/
inductive Call
  | add (handle : Handle) (line : Option Nat) (signature : Option String)
  | register (branch : Branch) (fired : Bool)
  | registerEdge (edge : Edge)
deriving DecidableEq

namespace Call

def perform : Call → Update FlowGraph Unit
  | add handle line signature => discard (FlowGraph.add handle { line, signature })
  | register branch fired => FlowGraph.register branch.node fired branch.index
  | registerEdge edge => FlowGraph.registerEdge edge.via.node edge.target edge.via.index

/-- What the call asks of the graph. -/
def Fits (g : FlowGraph) : Call → Prop
  | add handle _ _ => ¬ handle ∈ g.ids
  | register branch _ => Room g.nodes branch.node
  | registerEdge edge => Room g.nodes edge.via.node ∧ edge.target < g.nodes.size

/-- The nodes after a call that fits. -/
def effect (nodes : Array Node) : Call → Array Node
  | add _ line signature => nodes.push { line, signature }
  | register branch fired => direct nodes branch fired
  | registerEdge edge => connect nodes edge

end Call

/-- The graph after the calls, one after the other, whatever each of them answers. -/
def build (calls : List Call) : FlowGraph := calls.foldl (fun g c ↦ c.perform.final g) {}

/-- After the calls `before`, the call `c` succeeds. -/
def Succeeds (before : List Call) (c : Call) : Prop := c.perform.answer (build before) = .ok ()

instance (before : List Call) (c : Call) : Decidable (Succeeds before c) :=
  inferInstanceAs (Decidable (c.perform.answer (build before) = .ok ()))

/-- After the calls `before` and the edge, the calls `after` registered another edge to the same
instruction while that was not covered. -/
def Overtaken (before : List Call) (e : Edge) (after : List Call) : Prop :=
  ∃ between later, ∃ e' : Edge, after = between ++ .registerEdge e' :: later ∧
    e'.target = e.target ∧
    Succeeds (before ++ .registerEdge e :: between) (.registerEdge e') ∧
    ¬ Covered (build (before ++ .registerEdge e :: between)).nodes e.target

/-- The edge was registered and not overtaken. -/
def Heeded (calls : List Call) (e : Edge) : Prop :=
  ∃ before after, calls = before ++ .registerEdge e :: after ∧
    Succeeds before (.registerEdge e) ∧ ¬ Overtaken before e after

/-- The branch was registered with a probe that fired. -/
def Fired (calls : List Call) (b : Branch) : Prop :=
  ∃ before after, calls = before ++ .register b true :: after ∧ Succeeds before (.register b true)

/-! ## One call -/

theorem final_countBranch_of_not_room {id : NodeId} {g : FlowGraph} (h : ¬ Room g.nodes id) :
    ∃ e, (countBranch id).run g = .error e g := by
  change ∃ e, countBranch id g = _
  unfold countBranch
  split
  · exact ⟨_, rfl⟩
  next n hn =>
    have hfull : ¬ n.branches + 1 < countBound := fun hlt ↦ h ⟨n, hn, hlt⟩
    rw [addBelow, if_neg hfull]
    exact ⟨_, rfl⟩

theorem run_register_of_not_room {id : NodeId} {g : FlowGraph} (h : ¬ Room g.nodes id)
    (fired : Bool) (branch : Nat) : ∃ e, (register id fired branch).run g = .error e g := by
  obtain ⟨e, he⟩ := final_countBranch_of_not_room h
  refine ⟨e, ?_⟩
  rw [register, EStateM.run_bind, he]

theorem run_registerEdge_of_not_room {source target : NodeId} {g : FlowGraph}
    (h : ¬ (Room g.nodes source ∧ target < g.nodes.size)) (branch : Nat) :
    ∃ e, (registerEdge source target branch).run g = .error e g := by
  rw [registerEdge]
  simp only [EStateM.run_bind, requireId_eq]
  by_cases hs : source < g.nodes.size
  · by_cases ht : target < g.nodes.size
    · obtain ⟨e, he⟩ := final_countBranch_of_not_room fun hroom ↦ h ⟨hroom, ht⟩
      refine ⟨e, ?_⟩
      simp only [hs, ht, if_true, he]
    · exact ⟨.unknownInstruction target, by simp only [hs, ht, if_true, if_false]⟩
  · exact ⟨.unknownInstruction source, by simp only [hs, if_false]⟩

namespace Call

variable {g : FlowGraph} {c : Call}

theorem run_of_fits (h : c.Fits g) :
    ∃ g', c.perform.run g = .ok () g' ∧ g'.nodes = c.effect g.nodes := by
  cases c with
  | add handle line signature =>
    exact ⟨_, Update.discard_eq_ok_iff.mpr ⟨_, add_eq_ok_iff.mpr ⟨h, rfl, rfl⟩⟩, rfl⟩
  | register b fired => exact ⟨_, register_eq_ok_iff.mpr ⟨h, rfl⟩, rfl⟩
  | registerEdge e => exact ⟨_, registerEdge_eq_ok_iff.mpr ⟨h.1, h.2, rfl⟩, rfl⟩

/-- A call that fails changes nothing. -/
theorem run_of_not_fits (h : ¬ c.Fits g) : ∃ e, c.perform.run g = .error e g := by
  cases c with
  | add handle line signature =>
    have hmem : handle ∈ g.ids := not_not.mp h
    refine ⟨.duplicateInstruction handle, ?_⟩
    change (discard (FlowGraph.add handle { line, signature }) : Update FlowGraph Unit).run g = _
    rw [Update.run_discard, run_add_of_mem hmem]
  | register b fired => exact run_register_of_not_room h fired b.index
  | registerEdge e => exact run_registerEdge_of_not_room h e.via.index

theorem answer_eq_ok_iff : c.perform.answer g = .ok () ↔ c.Fits g := by
  constructor
  · intro h
    by_contra hfits
    obtain ⟨e, he⟩ := run_of_not_fits hfits
    rw [Update.answer, he] at h
    cases h
  · intro h
    obtain ⟨g', hg', -⟩ := run_of_fits h
    rw [Update.answer, hg']

theorem nodes_final_of_fits (h : c.Fits g) : (c.perform.final g).nodes = c.effect g.nodes := by
  obtain ⟨g', hg', hnodes⟩ := run_of_fits h
  rw [Update.final, hg']
  exact hnodes

theorem final_of_not_fits (h : ¬ c.Fits g) : c.perform.final g = g := by
  obtain ⟨e, he⟩ := run_of_not_fits h
  rw [Update.final, he]

end Call

/-! ## A history with one more call -/

theorem build_append (calls : List Call) (c : Call) :
    build (calls ++ [c]) = c.perform.final (build calls) := by
  rw [build, List.foldl_append]
  rfl

theorem fired_append {calls : List Call} {c : Call} {b : Branch} :
    Fired (calls ++ [c]) b ↔ Fired calls b ∨ c = .register b true ∧ Succeeds calls c := by
  rw [Fired, exists_split_append_singleton (P := fun before _ ↦ Succeeds before (.register b true))]
  refine or_congr Iff.rfl (and_congr_right fun hc ↦ ?_)
  rw [hc]

/-- With the call `c`, an edge to the instruction `id` overtakes those before it. -/
def Overtakes (calls : List Call) (c : Call) (id : NodeId) : Prop :=
  ∃ e' : Edge, c = .registerEdge e' ∧ e'.target = id ∧ Succeeds calls c ∧
    ¬ Covered (build calls).nodes id

theorem overtaken_append {before after : List Call} {e : Edge} {c : Call} :
    Overtaken before e (after ++ [c]) ↔
      Overtaken before e after ∨ Overtakes (before ++ .registerEdge e :: after) c e.target := by
  simp only [Overtaken, Overtakes]
  constructor
  · rintro ⟨between, later, e', heq, hrest⟩
    rcases (exists_split_append_singleton (P := fun b l ↦ b = between ∧ l = later)).mp
      ⟨between, later, heq, rfl, rfl⟩ with ⟨_, later', heq', rfl, -⟩ | ⟨rfl, rfl, -⟩
    · exact Or.inl ⟨_, later', e', heq', hrest⟩
    · exact Or.inr ⟨e', rfl, hrest⟩
  · rintro (⟨between, later, e', rfl, hrest⟩ | ⟨e', rfl, hrest⟩)
    · exact ⟨between, later ++ [c], e', by simp, hrest⟩
    · exact ⟨after, [], e', rfl, hrest⟩

theorem heeded_append {calls : List Call} {c : Call} {e : Edge} :
    Heeded (calls ++ [c]) e ↔
      (Heeded calls e ∧ ¬ Overtakes calls c e.target) ∨
        c = .registerEdge e ∧ Succeeds calls c := by
  have hnot : ¬ Overtaken calls e [] := by
    rintro ⟨between, later, e', heq, -⟩
    cases between <;> cases heq
  rw [Heeded, exists_split_append_singleton
    (P := fun before after ↦ Succeeds before (.registerEdge e) ∧ ¬ Overtaken before e after)]
  refine or_congr ?_ (and_congr_right fun hc ↦ ?_)
  · constructor
    · rintro ⟨before, after, rfl, hok, hover⟩
      rw [overtaken_append, not_or] at hover
      exact ⟨⟨before, after, rfl, hok, hover.1⟩, hover.2⟩
    · rintro ⟨⟨before, after, rfl, hok, hover⟩, hc⟩
      refine ⟨before, after, rfl, hok, ?_⟩
      rw [overtaken_append, not_or]
      exact ⟨hover, hc⟩
  · rw [hc]
    exact and_iff_left hnot

end FlowGraph

/-! ## What the calls keep -/

/-- The nodes have taken the branches of all edges to covered instructions; where the instruction is
not covered yet, the edge is its link. -/
structure Follows (E : Edge → Prop) (F : Branch → Prop) (nodes : Array Node) : Prop
    extends Explains E F nodes where
  followed : ∀ e, E e → Covered nodes e.target → Taken nodes e.via
  awaited : ∀ e, E e → ¬ Covered nodes e.target → Linked nodes e.target e.via

/-- If the branches of all edges to covered instructions are taken, edges to others explain
nothing. -/
theorem Executed.restrict {E E' : Edge → Prop} {F : Branch → Prop} {nodes : Array Node}
    (hF : ∀ b, F b → Taken nodes b)
    (hE : ∀ e, E e → Covered nodes e.target → Taken nodes e.via ∧ E' e) {b : Branch}
    (h : Executed E F b) : Taken nodes b ∧ Executed E' F b := by
  induction h with
  | fired hb => exact ⟨hF _ hb, .fired hb⟩
  | edge he _ ih =>
    obtain ⟨hvia, he'⟩ := hE _ he ih.1.covered
    exact ⟨hvia, .edge he' ih.2⟩

namespace Follows

variable {E : Edge → Prop} {F : Branch → Prop} {nodes : Array Node}

theorem of_empty : Follows (fun _ ↦ False) (fun _ ↦ False) #[] where
  toExplains := .of_empty
  followed _ h := h.elim
  awaited _ h := h.elim

theorem taken_iff (h : Follows E F nodes) {b : Branch} : Taken nodes b ↔ Executed E F b :=
  ⟨h.sound b, fun hb ↦ (hb.restrict h.fired fun e he hcov ↦ ⟨h.followed e he hcov, he⟩).1⟩

theorem iff_congr {E' : Edge → Prop} {F' : Branch → Prop} (h : Follows E F nodes)
    (hE : ∀ e, E' e ↔ E e) (hF : ∀ b, F' b ↔ F b) : Follows E' F' nodes where
  toExplains := h.toExplains.iff_congr hE hF
  followed e he := h.followed e ((hE e).mp he)
  awaited e he := h.awaited e ((hE e).mp he)

theorem push (h : Follows E F nodes) {n : Node} (hcov : n.covered = ∅) (hlink : n.link = none) :
    Follows E F (nodes.push n) where
  toExplains := h.congr (fun _ ↦ taken_push hcov) (fun _ _ ↦ linked_push hlink) (by simp)
  followed e he hc :=
    (taken_push hcov).mpr (h.followed e he ((covered_congr fun _ ↦ taken_push hcov).mp hc))
  awaited e he hc :=
    (linked_push hlink).mpr (h.awaited e he (mt (covered_congr fun _ ↦ taken_push hcov).mpr hc))

/-- What becomes covered passes that on along the links, which are the edges that wait for it. -/
theorem taken_of_grown {nodes' : Array Node} (h : Follows E F nodes) (hclosed : Closed nodes')
    (hmono : ∀ b, Taken nodes b → Taken nodes' b) {e : Edge} (he : E e)
    (hlinked : ¬ Covered nodes e.target → Linked nodes' e.target e.via)
    (hcov : Covered nodes' e.target) : Taken nodes' e.via := by
  by_cases hold : Covered nodes e.target
  · exact hmono _ (h.followed e he hold)
  · exact hclosed e.target e.via hcov (hlinked hold)

theorem direct (h : Follows E F nodes) {b : Branch} (fired : Bool) (hb : b.node < nodes.size) :
    Follows E (fun c ↦ F c ∨ fired = true ∧ c = b) (direct nodes b fired) := by
  have hexplains := h.toExplains.direct fired hb
  have hmono : ∀ c, Taken nodes c → Taken (ProbeCoverage.direct nodes b fired) c := fun c hc ↦
    (taken_direct h.settled).mpr (Or.inl hc)
  refine ⟨hexplains, fun e he hcov ↦ ?_, fun e he hunc ↦ ?_⟩
  · exact h.taken_of_grown hexplains.settled.closed hmono he
      (fun hold ↦ linked_direct.mpr (h.awaited e he hold)) hcov
  · refine linked_direct.mpr (h.awaited e he fun hold ↦ hunc ?_)
    exact hold.imp fun i hi ↦ hmono _ hi

/-- The new edge overtakes the others to its target, unless that is covered. -/
theorem connect (h : Follows E F nodes) {e : Edge} (hvia : e.via.node < nodes.size)
    (htarget : e.target < nodes.size) :
    Follows (fun x ↦ (E x ∧ (x.target = e.target → Covered nodes e.target)) ∨ x = e) F
      (connect nodes e) := by
  have hexplains := h.toExplains.connect hvia htarget
  have hclosed := hexplains.settled.closed
  have hmono : ∀ c, Taken nodes c → Taken (ProbeCoverage.connect nodes e) c := fun c hc ↦
    (taken_connect h.settled).mpr (Or.inl hc)
  have hlink : ∀ x, E x → x.target ≠ e.target → ¬ Covered nodes x.target →
      Linked (ProbeCoverage.connect nodes e) x.target x.via := fun x hx hne hunc ↦ by
    rw [linked_connect, linked_attach, if_neg hne]
    exact h.awaited x hx hunc
  have hnew : Linked (ProbeCoverage.connect nodes e) e.target e.via := by
    rw [linked_connect, linked_attach, if_pos rfl]
    exact ⟨rfl, htarget⟩
  -- an uncovered target stays uncovered: registering an edge to it spreads nothing
  have hstill : Covered (ProbeCoverage.connect nodes e) e.target → Covered nodes e.target := by
    rintro ⟨i, hi⟩
    rcases (taken_connect h.settled).mp hi with hi | ⟨hcov, -⟩
    · exact ⟨i, hi⟩
    · exact hcov
  have hfollowed : ∀ x, E x → Covered (ProbeCoverage.connect nodes e) x.target →
      Taken (ProbeCoverage.connect nodes e) x.via := fun x hx hcov ↦ by
    refine h.taken_of_grown hclosed hmono hx (fun hold ↦ hlink x hx (fun heq ↦ hold ?_) hold) hcov
    exact heq ▸ hstill (heq ▸ hcov)
  refine ⟨⟨hexplains.settled, fun id c hc ↦ ?_, fun x hx ↦ ?_, hexplains.fired, fun b hb ↦ ?_⟩,
    fun x hx hcov ↦ ?_, fun x hx hunc ↦ ?_⟩
  · by_cases hid : id = e.target
    · right
      rw [hid, hc.unique (hid ▸ hnew)]
    · rcases hexplains.linked id c hc with hE | heq
      · exact Or.inl ⟨hE, fun heq ↦ absurd heq hid⟩
      · exact Or.inr heq
  · exact hexplains.reached x (hx.imp_left And.left)
  · refine ((hexplains.sound b hb).restrict hexplains.fired fun x hx hcov ↦ ?_).2
    rcases hx with hx | rfl
    · exact ⟨hfollowed x hx hcov, Or.inl ⟨hx, fun heq ↦ hstill (heq ▸ hcov)⟩⟩
    · exact ⟨hclosed _ _ hcov hnew, Or.inr rfl⟩
  · rcases hx with ⟨hx, -⟩ | rfl
    · exact hfollowed x hx hcov
    · exact hclosed _ _ hcov hnew
  · rcases hx with ⟨hx, hover⟩ | rfl
    · have hold : ¬ Covered nodes x.target := fun hold ↦ hunc (hold.imp fun i hi ↦ hmono _ hi)
      exact hlink x hx (fun heq ↦ hold (heq ▸ hover heq)) hold
    · exact hnew

end Follows

namespace FlowGraph

theorem follows_build (calls : List Call) :
    Follows (Heeded calls) (Fired calls) (build calls).nodes := by
  induction calls using List.reverseRecOn with
  | nil =>
    refine Follows.of_empty.iff_congr (fun e ↦ ?_) fun b ↦ ?_
    · simp [Heeded]
    · simp [Fired]
  | append_singleton calls c ih =>
    rw [build_append]
    by_cases hfits : c.Fits (build calls)
    · have hok : Succeeds calls c := Call.answer_eq_ok_iff.mpr hfits
      rw [Call.nodes_final_of_fits hfits]
      cases c with
      | add handle line signature =>
        refine (ih.push (n := { line, signature }) rfl rfl).iff_congr (fun e ↦ ?_) fun b ↦ ?_
        · simp [heeded_append, Overtakes]
        · simp [fired_append]
      | register b fired =>
        refine (ih.direct fired hfits.lt_size).iff_congr (fun e ↦ ?_) fun b' ↦ ?_
        · simp [heeded_append, Overtakes]
        · simp [fired_append, hok, and_comm, eq_comm]
      | registerEdge e =>
        refine (ih.connect hfits.1.lt_size hfits.2).iff_congr (fun x ↦ ?_) fun b ↦ ?_
        · rw [heeded_append]
          refine or_congr (and_congr_right fun _ ↦ ?_) ?_
          · simp only [Overtakes, Call.registerEdge.injEq, exists_eq_left', hok, true_and, not_and,
              not_not]
            exact ⟨fun h heq ↦ heq ▸ h heq.symm, fun h heq ↦ heq ▸ h heq.symm⟩
          · simp [hok, eq_comm]
        · simp [fired_append]
    · have hno : ¬ Succeeds calls c := fun hok ↦ hfits (Call.answer_eq_ok_iff.mp hok)
      rw [Call.final_of_not_fits hfits]
      refine ih.iff_congr (fun e ↦ ?_) fun b ↦ ?_
      · simp [heeded_append, Overtakes, hno]
      · simp [fired_append, hno]

/-- What a graph has taken: the branches that fired, and those that lead on by edges not
overtaken. -/
theorem taken_build_iff {calls : List Call} {b : Branch} :
    Taken (build calls).nodes b ↔ Executed (Heeded calls) (Fired calls) b :=
  (follows_build calls).taken_iff

/-- An edge to an instruction that is covered in the end has its branch taken exactly if it was not
overtaken, or the branch was registered another time and follows from that. -/
theorem taken_via_iff {before after : List Call} {e : Edge}
    (hok : Succeeds before (.registerEdge e))
    (hcov : Covered (build (before ++ .registerEdge e :: after)).nodes e.target) :
    Taken (build (before ++ .registerEdge e :: after)).nodes e.via ↔
      ¬ Overtaken before e after ∨
        Executed (Heeded (before ++ .registerEdge e :: after))
          (Fired (before ++ .registerEdge e :: after)) e.via := by
  constructor
  · exact fun h ↦ Or.inr (taken_build_iff.mp h)
  · rintro (hover | hexec)
    · exact (follows_build _).followed e ⟨before, after, rfl, hok, hover⟩ hcov
    · exact taken_build_iff.mpr hexec

/-- One edge, and a probe of its target that fires later. -/
theorem taken_via_iff_firesLater :
    let before := [Call.add ⟨0⟩ none none, .add ⟨1⟩ none none]
    let e : Edge := ⟨⟨0, 1⟩, 1⟩
    let after := [Call.register ⟨1, 0⟩ true]
    Succeeds before (.registerEdge e) ∧
      Covered (build (before ++ .registerEdge e :: after)).nodes e.target ∧
      (Taken (build (before ++ .registerEdge e :: after)).nodes e.via ↔
        ¬ Overtaken before e after ∨
          Executed (Heeded (before ++ .registerEdge e :: after))
            (Fired (before ++ .registerEdge e :: after)) e.via) := by
  intro before e after
  have hok : Succeeds before (.registerEdge e) := by decide +kernel
  have hcov : Covered (build (before ++ .registerEdge e :: after)).nodes e.target :=
    ⟨0, by decide +kernel⟩
  exact ⟨hok, hcov, taken_via_iff hok hcov⟩

/-- Two instructions lead to a third whose probe fires afterwards: only the last one to say so
follows it. -/
theorem taken_via_lost :
    let calls := [Call.add ⟨0⟩ none none, .add ⟨1⟩ none none, .add ⟨2⟩ none none,
      .registerEdge ⟨⟨0, 0⟩, 2⟩, .registerEdge ⟨⟨1, 0⟩, 2⟩, .register ⟨2, 0⟩ true]
    Succeeds (calls.take 3) (.registerEdge ⟨⟨0, 0⟩, 2⟩) ∧ Covered (build calls).nodes 2 ∧
      Taken (build calls).nodes ⟨1, 0⟩ ∧ ¬ Taken (build calls).nodes ⟨0, 0⟩ := by
  refine ⟨by decide +kernel, ⟨0, by decide +kernel⟩, by decide +kernel, by decide +kernel⟩

end FlowGraph

end ProbeCoverage
