import ProbeCoverage.Proofs.Reachability

/-!
# Coverage adds up

The probe array decides which branches of a stream are taken, and nothing else: whether the stream
has a graph, and what the graph looks like without its coverage, depends only on the array being
long enough. If the probes of one array fired exactly where those of one of two others did, its
graph has taken the branches that one of their graphs has.
-/

namespace ProbeCoverage

/-! ## Outlines of changed nodes -/

@[simp] theorem outlines_outlines (nodes : Array Node) :
    outlines (outlines nodes) = outlines nodes := by
  rw [outlines, outlines, Array.map_map]
  rfl

theorem outlines_push (nodes : Array Node) (n : Node) :
    outlines (nodes.push n) = (outlines nodes).push n.outline := by
  simp [outlines]

theorem outlines_modify {f : Node → Node} (h : ∀ n, (f n).outline = f n.outline)
    (nodes : Array Node) (id : NodeId) :
    outlines (nodes.modify id f) = (outlines nodes).modify id f :=
  map_modify h nodes id

theorem outlines_addBranch (nodes : Array Node) (id : NodeId) :
    outlines (addBranch nodes id) = addBranch (outlines nodes) id := by
  apply outlines_modify
  intro n
  rfl

theorem outlines_stamp (nodes : Array Node) (id : NodeId) (probe : Nat) :
    outlines (stamp nodes id probe) = stamp (outlines nodes) id probe := by
  apply outlines_modify
  intro n
  rfl

theorem outlines_attach (nodes : Array Node) (e : Edge) :
    outlines (attach nodes e) = attach (outlines nodes) e := by
  rw [attach, attach, ← outlines_addBranch]
  apply outlines_modify
  intro n
  rfl

theorem outlines_spreadIf (taken : Bool) (nodes : Array Node) (b : Branch) :
    outlines (spreadIf taken nodes b) = outlines nodes := by
  cases taken with
  | false => rfl
  | true => exact outlines_spread nodes b

theorem outlines_direct (nodes : Array Node) (b : Branch) (fired : Bool) :
    outlines (direct nodes b fired) = addBranch (outlines nodes) b.node := by
  rw [direct, outlines_spreadIf, outlines_addBranch]

theorem outlines_connect (nodes : Array Node) (e : Edge) :
    outlines (connect nodes e) = attach (outlines nodes) e := by
  rw [connect, outlines_spreadIf, outlines_attach]

theorem trail_congr {a b : Array Node} (h : outlines a = outlines b) {c d : Branch} :
    Trail a c d ↔ Trail b c d :=
  ⟨trail_of_outlines h, trail_of_outlines h.symm⟩

theorem room_of_outlines {a b : Array Node} (h : outlines a = outlines b) {id : NodeId}
    (hroom : Room a id) : Room b id := by
  obtain ⟨n, hn, hlt⟩ := hroom
  obtain ⟨m, hm, hout⟩ := getElem?_of_outlines h hn
  have hbranches : m.branches = n.branches := (congrArg Node.branches hout).symm
  exact ⟨m, hm, hbranches ▸ hlt⟩

theorem room_congr {a b : Array Node} (h : outlines a = outlines b) {id : NodeId} :
    Room a id ↔ Room b id :=
  ⟨room_of_outlines h, room_of_outlines h.symm⟩

/-! ## Joined coverage -/

/-- The nodes of `c` have taken what those of `a` or of `b` have, and are the same otherwise. -/
structure Joins (a b c : Array Node) : Prop where
  left : outlines a = outlines c
  right : outlines b = outlines c
  taken : ∀ x, Taken c x ↔ Taken a x ∨ Taken b x

namespace Joins

variable {a b c : Array Node}

theorem self (a : Array Node) : Joins a a a := ⟨rfl, rfl, fun _ ↦ (or_self_iff).symm⟩

theorem covered (h : Joins a b c) {id : NodeId} :
    Covered c id ↔ Covered a id ∨ Covered b id := by
  simp only [Covered, h.taken, exists_or]

theorem push (h : Joins a b c) {n : Node} (hn : n.covered = ∅) :
    Joins (a.push n) (b.push n) (c.push n) := by
  refine ⟨?_, ?_, fun x ↦ ?_⟩
  · rw [outlines_push, outlines_push, h.left]
  · rw [outlines_push, outlines_push, h.right]
  · rw [taken_push hn, taken_push hn, taken_push hn, h.taken]

theorem stamp (h : Joins a b c) (id : NodeId) (probe : Nat) :
    Joins (stamp a id probe) (stamp b id probe) (stamp c id probe) := by
  have htaken : ∀ (nodes : Array Node) (x : Branch),
      Taken (ProbeCoverage.stamp nodes id probe) x ↔ Taken nodes x :=
    fun nodes x ↦ taken_modify fun _ ↦ rfl
  refine ⟨?_, ?_, fun x ↦ ?_⟩
  · rw [outlines_stamp, outlines_stamp, h.left]
  · rw [outlines_stamp, outlines_stamp, h.right]
  · rw [htaken, htaken, htaken, h.taken]

/-- A probe that fired for `c` fired for `a` or for `b`. The trails are the same for all three. -/
theorem direct (h : Joins a b c) (ha : Settled a) (hb : Settled b) (hc : Settled c) (x : Branch)
    (fa fb : Bool) : Joins (direct a x fa) (direct b x fb) (direct c x (fa || fb)) := by
  have hleft : outlines (addBranch a x.node) = outlines (addBranch c x.node) := by
    rw [outlines_addBranch, outlines_addBranch, h.left]
  have hright : outlines (addBranch b x.node) = outlines (addBranch c x.node) := by
    rw [outlines_addBranch, outlines_addBranch, h.right]
  refine ⟨?_, ?_, fun y ↦ ?_⟩
  · rw [outlines_direct, outlines_direct, h.left]
  · rw [outlines_direct, outlines_direct, h.right]
  · rw [taken_direct ha, taken_direct hb, taken_direct hc, trail_congr hleft, trail_congr hright,
      size_eq_of_outlines h.left, size_eq_of_outlines h.right, h.taken, Bool.or_eq_true]
    tauto

theorem connect (h : Joins a b c) (ha : Settled a) (hb : Settled b) (hc : Settled c) (e : Edge) :
    Joins (connect a e) (connect b e) (connect c e) := by
  have hleft : outlines (attach a e) = outlines (attach c e) := by
    rw [outlines_attach, outlines_attach, h.left]
  have hright : outlines (attach b e) = outlines (attach c e) := by
    rw [outlines_attach, outlines_attach, h.right]
  refine ⟨?_, ?_, fun y ↦ ?_⟩
  · rw [outlines_connect, outlines_connect, h.left]
  · rw [outlines_connect, outlines_connect, h.right]
  · rw [taken_connect ha, taken_connect hb, taken_connect hc, trail_congr hleft,
      trail_congr hright, size_eq_of_outlines h.left, size_eq_of_outlines h.right, h.taken,
      h.covered]
    tauto

theorem foldl_connect (h : Joins a b c) (ha : Settled a) (hb : Settled b) (hc : Settled c)
    {edges : List Edge} (hcon : Recording.Connectable c edges) :
    Joins (edges.foldl ProbeCoverage.connect a) (edges.foldl ProbeCoverage.connect b)
      (edges.foldl ProbeCoverage.connect c) := by
  induction edges generalizing a b c with
  | nil => exact h
  | cons e edges ih =>
    obtain ⟨hroom, -, hcon⟩ := hcon
    have hlt := hroom.lt_size
    refine ih (h.connect ha hb hc e) (settled_connect ha ?_) (settled_connect hb ?_)
      (settled_connect hc hlt) hcon
    · exact (size_eq_of_outlines h.left).symm ▸ hlt
    · exact (size_eq_of_outlines h.right).symm ▸ hlt

/-- Nothing joins two arrays but their union. -/
theorem unique {d : Array Node} (h : Joins a b c) (h' : Joins a b d) : c = d :=
  ext_outlines (h.left.symm.trans h'.left) fun x ↦ (h.taken x).trans (h'.taken x).symm

end Joins

/-! ## Recordings without coverage -/

def Stream.Uses (es : List Event) (probe : Nat) : Prop := ∃ b, Event.probe probe b ∈ es

namespace Recording

def outline (r : Recording) : Recording :=
  { r with probes := none, graph := { r.graph with nodes := outlines r.graph.nodes } }

theorem outlines_entered (r : Recording) (signature : Option String) :
    outlines (r.entered signature) = outlines (r.outline.entered signature) := by
  have hfresh : outlines (r.fresh signature) = outlines (r.outline.fresh signature) := by
    rw [fresh, fresh, outlines_push, outlines_push, outline, outlines_outlines]
  have hsize : r.outline.graph.nodes.size = r.graph.nodes.size := by simp [outline, outlines]
  have hcurrent : r.outline.current = r.current := rfl
  unfold entered
  rw [hsize, hcurrent]
  cases r.current with
  | none => exact hfresh
  | some previous =>
    dsimp only
    rw [outlines_connect, outlines_connect, hfresh]

theorem outline_withNodes (r : Recording) (nodes : Array Node) :
    (r.withNodes nodes).outline = r.outline.withNodes (outlines nodes) := rfl

theorem outline_outline (r : Recording) : r.outline.outline = r.outline := by
  simp [outline]

theorem outline_step (r : Recording) (e : Event) :
    (r.step e).outline = (r.outline.step e).outline := by
  cases e with
  | line n => simp [step, outline]
  | label l s => simp [step, outline]
  | noSuccessor => simp [step, outline]
  | endMethod => simp [step, outline]
  | instruction handle signature =>
    have hsize : (outlines r.graph.nodes).size = r.graph.nodes.size := by simp [outlines]
    change (r.enter handle signature).outline = (r.outline.enter handle signature).outline
    rw [enter, enter, outline, outline]
    simp only [withNodes, plant, outlines_entered r signature]
    simp only [outline, hsize]
  | jump l b =>
    have hcur : r.outline.current = r.current := rfl
    cases hc : r.current with
    | none => simp [step, hcur, hc, outline_outline]
    | some id => simp [step, hc, outline]
  | probe p b =>
    have hcur : r.outline.current = r.current := rfl
    cases hc : r.current with
    | none => simp [step, hcur, hc, outline_outline]
    | some id =>
      simp only [step, hcur, hc, outline_withNodes, outlines_direct, outlines_stamp,
        outline_outline]
      simp [outline]

theorem readable_none (probe : Nat) : Readable none probe := by
  intro a ha
  cases ha

theorem room_outline {r : Recording} {id : NodeId} :
    Room r.outline.graph.nodes id ↔ Room r.graph.nodes id :=
  room_congr (outlines_outlines r.graph.nodes)

theorem room_fresh_outline {r : Recording} {signature : Option String} {id : NodeId} :
    Room (r.outline.fresh signature) id ↔ Room (r.fresh signature) id := by
  apply room_congr
  rw [fresh, fresh, outlines_push, outlines_push, outline, outlines_outlines]

theorem admits_iff {r : Recording} {e : Event} :
    Admits r e ↔ Admits r.outline e ∧ ∀ p b, e = .probe p b → Readable r.probes p := by
  cases e with
  | line n => simp [Admits]
  | label l s => simp [Admits]
  | noSuccessor => simp [Admits]
  | endMethod => simp [Admits]
  | jump l b => simp [Admits, outline]
  | instruction handle signature =>
    simp only [Admits, room_fresh_outline, reduceCtorEq, false_implies, implies_true, and_true]
    exact Iff.rfl
  | probe p b =>
    simp only [Admits, room_outline, Event.probe.injEq, and_imp]
    constructor
    · rintro ⟨id, hid, hb, hread, hroom⟩
      refine ⟨⟨id, hid, hb, readable_none p, hroom⟩, ?_⟩
      rintro _ _ rfl -
      exact hread
    · rintro ⟨⟨id, hid, hb, -, hroom⟩, hread⟩
      exact ⟨id, hid, hb, hread p b rfl rfl, hroom⟩

theorem outline_ofStream (probes : Option (Array Bool)) (es : List Event) :
    (ofStream probes es).outline = (ofStream none es).outline := by
  induction es using List.reverseRecOn with
  | nil => rfl
  | append_singleton es e ih =>
    rw [ofStream_append, ofStream_append, outline_step, ih, ← outline_step]

/-- Whether a stream is taken depends on the array only through its length. -/
theorem admitted_iff {probes : Option (Array Bool)} {es : List Event} :
    Admitted { probes } es ↔
      Admitted { probes := none } es ∧ ∀ i, Stream.Uses es i → Readable probes i := by
  induction es using List.reverseRecOn with
  | nil => simp [Admitted, Stream.Uses]
  | append_singleton es e ih =>
    have hout := outline_ofStream probes es
    have hended : (ofStream probes es).ended = (ofStream none es).ended :=
      (congrArg Recording.ended hout :)
    have hadm : Admits (ofStream probes es) e ↔ Admits (ofStream none es) e ∧
        ∀ p b, e = .probe p b → Readable probes p := by
      rw [admits_iff, hout, admits_iff (r := ofStream none es), probes_ofStream, probes_ofStream]
      simp [readable_none]
    have huses : (∀ i, Stream.Uses (es ++ [e]) i → Readable probes i) ↔
        (∀ i, Stream.Uses es i → Readable probes i) ∧
          ∀ p b, e = .probe p b → Readable probes p := by
      simp only [Stream.Uses, List.mem_append, List.mem_singleton, exists_or, or_imp, forall_and]
      refine and_congr Iff.rfl ⟨fun h p b heq ↦ h p ⟨b, heq.symm⟩, ?_⟩
      rintro h i ⟨b, heq⟩
      exact h i b heq.symm
    rw [admitted_append, admitted_append, huses, ih]
    change (_ ∧ (ofStream probes es).ended = false ∧ Admits (ofStream probes es) e) ↔
      (_ ∧ (ofStream none es).ended = false ∧ Admits (ofStream none es) e) ∧ _
    rw [hadm, hended]
    tauto

theorem connectable_of_outlines {a b : Array Node} (h : outlines a = outlines b)
    {edges : List Edge} (hcon : Connectable a edges) : Connectable b edges := by
  induction edges generalizing a b with
  | nil => exact hcon
  | cons e edges ih =>
    obtain ⟨hroom, hlt, hcon⟩ := hcon
    refine ⟨room_of_outlines h hroom, size_eq_of_outlines h ▸ hlt, ih ?_ hcon⟩
    rw [outlines_connect, outlines_connect, h]

end Recording

open Recording

theorem Stream.uses_of_mem_probes {es : List Event} {b : Branch} {i : Nat}
    (h : (b, i) ∈ Stream.probes es) : Stream.Uses es i := by
  induction es using List.reverseRecOn with
  | nil => cases h
  | append_singleton es e ih =>
    rw [Stream.probes_append, List.mem_append] at h
    rcases h with h | h
    · obtain ⟨c, hc⟩ := ih h
      exact ⟨c, List.mem_append_left [e] hc⟩
    · cases e with
      | probe p branch =>
        rw [Option.mem_toList, Stream.probe?, Option.map_eq_some_iff] at h
        obtain ⟨id, -, heq⟩ := h
        obtain rfl : p = i := congrArg Prod.snd heq
        exact ⟨branch, List.mem_append_right es List.mem_cons_self⟩
      | _ => cases h

/-! ## Graphs of one stream -/

namespace FlowGraph

def outline (g : FlowGraph) : FlowGraph := { g with nodes := outlines g.nodes }

theorem ext_outline {g g' : FlowGraph} (h : g.outline = g'.outline) (hnodes : g.nodes = g'.nodes) :
    g = g' := by
  cases g
  cases g'
  simp_all [outline]

theorem outlines_foldl_connect {a b : Array Node} (h : outlines a = outlines b)
    (edges : List Edge) : outlines (edges.foldl connect a) = outlines (edges.foldl connect b) := by
  refine List.foldl_rel (r := fun a b ↦ outlines a = outlines b) h ?_
  intro e _ a b hab
  rw [outlines_connect, outlines_connect, hab]

variable {A B C : Option (Array Bool)} {es : List Event} {a b c : FlowGraph}

/-- Another array that is long enough gives a graph with the same outline. -/
theorem ofEvents_of_readable (h : FlowGraph.ofEvents A es = .ok a)
    (hread : ∀ i, Stream.Uses es i → Readable B i) :
    ∃ b, FlowGraph.ofEvents B es = .ok b ∧ b.outline = a.outline := by
  obtain ⟨hadm, hended, edges, hedges, hcon, rfl⟩ := FlowGraph.ofEvents_eq_ok_iff.mp h
  have hout : (ofStream B es).outline = (ofStream A es).outline :=
    (outline_ofStream B es).trans (outline_ofStream A es).symm
  have hgraph : (ofStream B es).graph.outline = (ofStream A es).graph.outline :=
    congrArg Recording.graph hout
  have hnodes : outlines (ofStream B es).graph.nodes = outlines (ofStream A es).graph.nodes :=
    congrArg FlowGraph.nodes hgraph
  have hjumps : (ofStream B es).jumps = (ofStream A es).jumps :=
    (congrArg Recording.jumps hout :)
  have hplaces : (ofStream B es).places = (ofStream A es).places :=
    (congrArg Recording.places hout :)
  refine ⟨_, FlowGraph.ofEvents_eq_ok_iff.mpr ⟨?_, ?_, edges, ?_, ?_, rfl⟩, ?_⟩
  · exact admitted_iff.mpr ⟨(admitted_iff.mp hadm).1, hread⟩
  · exact (congrArg Recording.ended hout).trans hended
  · rw [hjumps, hplaces]
    exact hedges
  · exact connectable_of_outlines hnodes.symm hcon
  · have hhandles : (ofStream B es).graph.handles = (ofStream A es).graph.handles :=
      (congrArg FlowGraph.handles hgraph :)
    have hids : (ofStream B es).graph.ids = (ofStream A es).graph.ids :=
      (congrArg FlowGraph.ids hgraph :)
    simp only [outline, outlines_foldl_connect hnodes edges, hjumps, hhandles, hids]

theorem readable_of_ofEvents (h : FlowGraph.ofEvents A es = .ok a) {i : Nat}
    (hi : Stream.Uses es i) : Readable A i :=
  (admitted_iff.mp (FlowGraph.ofEvents_eq_ok h).1).2 i hi

theorem outline_eq (ha : FlowGraph.ofEvents A es = .ok a) (hb : FlowGraph.ofEvents B es = .ok b) :
    b.outline = a.outline := by
  obtain ⟨b', hb', hout⟩ := ofEvents_of_readable (B := B) ha fun i ↦ readable_of_ofEvents hb
  rw [hb] at hb'
  cases hb'
  exact hout

end FlowGraph

theorem settled_stamp {nodes : Array Node} (h : Settled nodes) (id : NodeId) (probe : Nat) :
    Settled (stamp nodes id probe) :=
  h.congr (fun _ ↦ taken_modify fun _ ↦ rfl) (fun _ _ ↦ linked_modify fun _ ↦ rfl)
    (by simp [stamp])

theorem settled_fresh {r : Recording} (h : Settled r.graph.nodes) (signature : Option String) :
    Settled (r.fresh signature) :=
  h.congr (fun _ ↦ taken_push rfl) (fun _ _ ↦ linked_push rfl) (by simp [fresh])

/-- Recordings that differ in coverage and in the probe array only. -/
structure JoinsAll (ra rb rc : Recording) : Prop where
  left : ra.outline = rc.outline
  right : rb.outline = rc.outline
  nodes : Joins ra.graph.nodes rb.graph.nodes rc.graph.nodes

theorem JoinsAll.entered {ra rb rc : Recording} (h : JoinsAll ra rb rc)
    (ha : Settled ra.graph.nodes) (hb : Settled rb.graph.nodes) (hc : Settled rc.graph.nodes)
    (signature : Option String) :
    Joins (ra.entered signature) (rb.entered signature) (rc.entered signature) := by
  have hcurA : ra.current = rc.current := (congrArg Recording.current h.left :)
  have hcurB : rb.current = rc.current := (congrArg Recording.current h.right :)
  have hlineA : ra.line = rc.line := (congrArg Recording.line h.left :)
  have hlineB : rb.line = rc.line := (congrArg Recording.line h.right :)
  have hfresh : Joins (ra.fresh signature) (rb.fresh signature) (rc.fresh signature) := by
    rw [fresh, fresh, fresh, hlineA, hlineB]
    exact h.nodes.push rfl
  unfold Recording.entered
  rw [hcurA, hcurB, size_eq_of_outlines h.nodes.left, size_eq_of_outlines h.nodes.right]
  cases rc.current with
  | none => exact hfresh
  | some previous =>
    exact hfresh.connect (settled_fresh ha signature) (settled_fresh hb signature)
      (settled_fresh hc signature) _

theorem JoinsAll.step {ra rb rc : Recording} (h : JoinsAll ra rb rc)
    (ha : Settled ra.graph.nodes) (hb : Settled rb.graph.nodes) (hc : Settled rc.graph.nodes)
    {e : Event} (hfire : ∀ p b, e = .probe p b →
      fires rc.probes p = (fires ra.probes p || fires rb.probes p)) :
    JoinsAll (ra.step e) (rb.step e) (rc.step e) := by
  refine ⟨?_, ?_, ?_⟩
  · rw [outline_step, h.left, ← outline_step]
  · rw [outline_step, h.right, ← outline_step]
  · have hcurA : ra.current = rc.current := (congrArg Recording.current h.left :)
    have hcurB : rb.current = rc.current := (congrArg Recording.current h.right :)
    cases e with
    | line n => exact h.nodes
    | label l s => exact h.nodes
    | noSuccessor => exact h.nodes
    | endMethod => exact h.nodes
    | instruction handle signature => exact h.entered ha hb hc signature
    | jump l b =>
      simp only [Recording.step, hcurA, hcurB]
      cases rc.current <;> exact h.nodes
    | probe p b =>
      simp only [Recording.step, hcurA, hcurB, hfire p b rfl]
      cases rc.current with
      | none => exact h.nodes
      | some id =>
        exact (h.nodes.stamp id p).direct (settled_stamp ha id p) (settled_stamp hb id p)
          (settled_stamp hc id p) ⟨id, b⟩ (fires ra.probes p) (fires rb.probes p)

section Joined

variable {A B C : Option (Array Bool)} {es : List Event}

/-- Read at the probes of the stream, `C` fired where `A` or `B` did. -/
def Stream.FiresBoth (es : List Event) (A B C : Option (Array Bool)) : Prop :=
  ∀ i, Stream.Uses es i → fires C i = (fires A i || fires B i)

theorem joinsAll_ofStream (hA : Admitted { probes := A } es) (hB : Admitted { probes := B } es)
    (hC : Admitted { probes := C } es) (hfire : Stream.FiresBoth es A B C) :
    JoinsAll (ofStream A es) (ofStream B es) (ofStream C es) := by
  induction es using List.reverseRecOn with
  | nil => exact ⟨rfl, rfl, Joins.self #[]⟩
  | append_singleton es e ih =>
    have hA' := (admitted_append.mp hA).1
    have hB' := (admitted_append.mp hB).1
    have hC' := (admitted_append.mp hC).1
    have hbefore : Stream.FiresBoth es A B C := fun i ⟨b, hb⟩ ↦
      hfire i ⟨b, List.mem_append_left [e] hb⟩
    rw [ofStream_append, ofStream_append, ofStream_append]
    refine (ih hA' hB' hC' hbefore).step (explains_ofStream hA').settled
      (explains_ofStream hB').settled (explains_ofStream hC').settled fun p b heq ↦ ?_
    rw [probes_ofStream, probes_ofStream, probes_ofStream]
    exact hfire p ⟨b, heq ▸ List.mem_append_right es List.mem_cons_self⟩

variable {a b c : FlowGraph}

theorem joins_ofEvents (ha : FlowGraph.ofEvents A es = .ok a)
    (hb : FlowGraph.ofEvents B es = .ok b) (hc : FlowGraph.ofEvents C es = .ok c)
    (hfire : Stream.FiresBoth es A B C) : Joins a.nodes b.nodes c.nodes := by
  obtain ⟨hA, -, hnodesA⟩ := FlowGraph.ofEvents_eq_ok ha
  obtain ⟨hB, -, hnodesB⟩ := FlowGraph.ofEvents_eq_ok hb
  obtain ⟨hC, hcon, hnodesC⟩ := FlowGraph.ofEvents_eq_ok hc
  rw [hnodesA, hnodesB, hnodesC]
  exact (joinsAll_ofStream hA hB hC hfire).nodes.foldl_connect (explains_ofStream hA).settled
    (explains_ofStream hB).settled (explains_ofStream hC).settled hcon

/-- Only the entries that the stream reads matter. -/
theorem FlowGraph.ofEvents_congr (ha : FlowGraph.ofEvents A es = .ok a)
    (hread : ∀ i, Stream.Uses es i → Readable B i)
    (hfire : ∀ i, Stream.Uses es i → fires B i = fires A i) :
    FlowGraph.ofEvents B es = .ok a := by
  obtain ⟨b, hb, hout⟩ := FlowGraph.ofEvents_of_readable ha hread
  have hjoin : Joins a.nodes a.nodes b.nodes := joins_ofEvents ha ha hb fun i hi ↦ by
    rw [hfire i hi, Bool.or_self]
  rw [hb, FlowGraph.ext_outline hout (hjoin.unique (Joins.self a.nodes))]

theorem FlowGraph.ofEvents_congr_some {p w : Array Bool}
    (h : FlowGraph.ofEvents (some p) es = .ok a) (hsize : w.size = p.size)
    (hagree : ∀ i, Stream.Uses es i → w.getD i false = p.getD i false) :
    FlowGraph.ofEvents (some w) es = .ok a := by
  apply ofEvents_congr h
  · intro i hi
    rw [readable_some, hsize]
    exact readable_some.mp (readable_of_ofEvents h hi)
  · exact hagree

end Joined

/-! ## The union of two runs -/

/-- In `c` each instruction has taken what it has taken in `a` or in `b`; otherwise all three are
the same. -/
structure FlowGraph.IsUnion (a b c : FlowGraph) : Prop where
  left : a.outline = c.outline
  right : b.outline = c.outline
  covered : ∀ id n m k, a.node? id = some n → b.node? id = some m → c.node? id = some k →
    k.covered = n.covered ∪ m.covered

theorem FlowGraph.isUnion_of_joins {a b c : FlowGraph} (hleft : a.outline = c.outline)
    (hright : b.outline = c.outline) (h : Joins a.nodes b.nodes c.nodes) : IsUnion a b c := by
  have htaken : ∀ {g : FlowGraph} {id n}, g.node? id = some n →
      ∀ i, Taken g.nodes ⟨id, i⟩ ↔ i ∈ n.covered := by
    intro g id n hn i
    replace hn : g.nodes[id]? = some n := hn
    simp [Taken, hn]
  refine ⟨hleft, hright, ?_⟩
  intro id n m k hn hm hk
  apply BranchSet.ext_mem
  intro i
  rw [BranchSet.mem_union, ← htaken hn, ← htaken hm, ← htaken hk, h.taken]

/-- The graph of the united probes is the union of the graphs. -/
theorem FlowGraph.ofEvents_zipWith_or {p q : Array Bool} {es : List Event} {a b : FlowGraph}
    (hsize : p.size = q.size) (ha : FlowGraph.ofEvents (some p) es = .ok a)
    (hb : FlowGraph.ofEvents (some q) es = .ok b) :
    ∃ c, FlowGraph.ofEvents (some (Array.zipWith (· || ·) p q)) es = .ok c ∧ IsUnion a b c := by
  have hread : ∀ i, Stream.Uses es i → Readable (some (Array.zipWith (· || ·) p q)) i := by
    intro i hi
    have hlt := readable_some.mp (readable_of_ofEvents ha hi)
    rw [readable_some, Array.size_zipWith]
    omega
  have hfire : Stream.FiresBoth es (some p) (some q) (some (Array.zipWith (· || ·) p q)) := by
    intro i hi
    have hlt := readable_some.mp (readable_of_ofEvents ha hi)
    have hlt' : i < q.size := by omega
    simp only [fires, Option.any_some, Array.getD_eq_getD_getElem?, Array.getElem?_zipWith,
      Array.getElem?_eq_getElem hlt, Array.getElem?_eq_getElem hlt', Option.getD_some]
  obtain ⟨c, hc, hout⟩ := ofEvents_of_readable ha hread
  refine ⟨c, hc, isUnion_of_joins hout.symm ?_ (joins_ofEvents ha hb hc hfire)⟩
  exact (outline_eq ha hb).trans hout.symm

/-- A loop whose head is entered twice: the first instruction falls through to it, the last one
jumps back. -/
def loopWithJoin : List Event :=
  [.instruction ⟨0⟩ none, .label ⟨0⟩ true, .instruction ⟨1⟩ none, .probe 0 1, .instruction ⟨2⟩ none,
    .jump ⟨0⟩ 1, .probe 1 0, .noSuccessor, .endMethod]

/-- The probe of the loop head and that of its end fire in different runs. -/
theorem FlowGraph.ofEvents_zipWith_or_loopWithJoin :
    ∃ a b c, FlowGraph.ofEvents (some #[true, false]) loopWithJoin = .ok a ∧
      FlowGraph.ofEvents (some #[false, true]) loopWithJoin = .ok b ∧
      FlowGraph.ofEvents (some #[true, true]) loopWithJoin = .ok c ∧ IsUnion a b c := by
  obtain ⟨a, ha⟩ : ∃ a, FlowGraph.ofEvents (some #[true, false]) loopWithJoin = .ok a :=
    exists_eq_ok (by decide +kernel)
  obtain ⟨b, hb⟩ : ∃ b, FlowGraph.ofEvents (some #[false, true]) loopWithJoin = .ok b :=
    exists_eq_ok (by decide +kernel)
  obtain ⟨c, hc, hunion⟩ := FlowGraph.ofEvents_zipWith_or (by decide) ha hb
  have hor : Array.zipWith (· || ·) #[true, false] #[false, true] = #[true, true] := by
    decide +kernel
  rw [hor] at hc
  exact ⟨a, b, c, ha, hb, hc, hunion⟩

end ProbeCoverage
