import ProbeCoverage.Proofs.Acceptance

/-!
# Wiring

An instruction has as many branches as were registered on it, and its link is the last edge that was
wired into it. A recording registers branches for probes and for instructions that follow one
another, and wires the latter; its jumps come when it is finished.
-/

namespace ProbeCoverage

/-- The branches were registered and the edges wired, in this order. -/
structure Wired (registered : List Branch) (wired : List Edge) (nodes : Array Node) : Prop where
  branches : ∀ id, id < nodes.size →
    (nodes.map Node.branches)[id]? = some (registered.countP (·.node = id))
  link : ∀ id, id < nodes.size →
    (nodes.map Node.link)[id]? = some ((wired.filter (·.target = id)).getLast?.map (·.via))

namespace Wired

variable {registered : List Branch} {wired : List Edge} {nodes nodes' : Array Node}

theorem empty : Wired [] [] #[] :=
  ⟨fun _ hid ↦ absurd hid (Nat.not_lt_zero _), fun _ hid ↦ absurd hid (Nat.not_lt_zero _)⟩

theorem congr (h : Wired registered wired nodes)
    (hbranches : nodes'.map Node.branches = nodes.map Node.branches)
    (hlink : nodes'.map Node.link = nodes.map Node.link) : Wired registered wired nodes' := by
  have hsize := Static.size_eq hlink
  exact ⟨fun id hid ↦ by rw [hbranches, h.branches id (hsize ▸ hid)],
    fun id hid ↦ by rw [hlink, h.link id (hsize ▸ hid)]⟩

theorem getElem?_modify_branches (h : Wired registered wired nodes) (b : Branch) {id : NodeId}
    (hid : id < nodes.size) : ((nodes.map Node.branches).modify b.node (· + 1))[id]? =
      some ((registered ++ [b]).countP (·.node = id)) := by
  rw [Array.getElem?_modify, h.branches id hid, List.countP_append, List.countP_singleton]
  by_cases hb : b.node = id
  · simp [hb]
  · simp [hb]

theorem direct (h : Wired registered wired nodes) (b : Branch) (fired : Bool) :
    Wired (registered ++ [b]) wired (direct nodes b fired) := by
  have hsize := Static.size_eq (link_direct nodes b fired)
  refine ⟨fun id hid ↦ ?_, fun id hid ↦ ?_⟩
  · rw [branches_direct]
    exact h.getElem?_modify_branches b (hsize ▸ hid)
  · rw [link_direct]
    exact h.link id (hsize ▸ hid)

theorem connect (h : Wired registered wired nodes) (e : Edge) :
    Wired (registered ++ [e.via]) (wired ++ [e]) (connect nodes e) := by
  have hsize := Static.size_eq (static_signature.map_connect nodes e)
  refine ⟨fun id hid ↦ ?_, fun id hid ↦ ?_⟩
  · rw [branches_connect]
    exact h.getElem?_modify_branches e.via (hsize ▸ hid)
  · rw [link_connect, Array.getElem?_modify, h.link id (hsize ▸ hid), List.filter_append]
    by_cases he : e.target = id
    · simp [he]
    · simp [he]

theorem foldl_connect (h : Wired registered wired nodes) (edges : List Edge) :
    Wired (registered ++ edges.map (·.via)) (wired ++ edges)
      (edges.foldl ProbeCoverage.connect nodes) := by
  induction edges generalizing registered wired nodes with
  | nil => simpa using h
  | cons e edges ih => simpa using ih (h.connect e)

/-- A new instruction, which nothing has been registered on or wired into. -/
theorem push (h : Wired registered wired nodes) {n : Node} (hbranches : n.branches = 0)
    (hlink : n.link = none) (hregistered : ∀ b ∈ registered, b.node < nodes.size)
    (hwired : ∀ e ∈ wired, e.target < nodes.size) : Wired registered wired (nodes.push n) := by
  -- what was registered and wired so far stays below the new place
  have hnone : registered.countP (·.node = nodes.size) = 0 := by
    simpa [List.countP_eq_zero] using fun b hb ↦ Nat.ne_of_lt (hregistered b hb)
  have hnil : wired.filter (·.target = nodes.size) = [] := by
    simpa [List.filter_eq_nil_iff] using fun e he ↦ Nat.ne_of_lt (hwired e he)
  refine ⟨fun id hid ↦ ?_, fun id hid ↦ ?_⟩
  · rw [Array.map_push, Array.getElem?_push, Array.size_map]
    split
    next heq => rw [heq, hbranches, hnone]
    next hne => exact h.branches id (by rw [Array.size_push] at hid; omega)
  · rw [Array.map_push, Array.getElem?_push, Array.size_map]
    split
    next heq => simp [heq, hlink, hnil]
    next hne => exact h.link id (by rw [Array.size_push] at hid; omega)

end Wired

/-! ## What a stream registers and wires -/

namespace Stream

/-- The branch that an event registers at once. -/
def register? (c : Cursor) : Event → Option Branch
  | .probe _ branch => c.current.map fun id ↦ ⟨id, branch⟩
  | .instruction _ _ => c.current.map fun previous ↦ ⟨previous, 0⟩
  | _ => none

/-- The branches that are registered before the stream ends. -/
def registered (es : List Event) : List Branch :=
  (sites es).filterMap fun (c, e) ↦ register? c e

variable {es : List Event}

theorem registered_append (es : List Event) (e : Event) :
    registered (es ++ [e]) = registered es ++ (register? (cursor es) e).toList := by
  rw [registered, sites_append, filterMap_append_singleton, ← registered]

theorem node_lt_of_register? {e : Event} {b : Branch} (h : register? (cursor es) e = some b) :
    b.node < (cursor es).count := by
  cases e with
  | probe p branch =>
    obtain ⟨id, hid, rfl⟩ := Option.map_eq_some_iff.mp h
    exact current_lt_count hid
  | instruction handle signature =>
    obtain ⟨previous, hprevious, rfl⟩ := Option.map_eq_some_iff.mp h
    exact current_lt_count hprevious
  | _ => cases h

theorem node_lt_of_mem_registered {b : Branch} (h : b ∈ registered es) :
    b.node < (cursor es).count := by
  obtain ⟨⟨c, e⟩, hmem, hb⟩ := List.mem_filterMap.mp h
  obtain ⟨before, after, rfl, rfl⟩ := mem_sites_iff.mp hmem
  rw [count_cursor_append]
  exact Nat.lt_of_lt_of_le (node_lt_of_register? hb) (Nat.le_add_right _ _)

theorem target_lt_of_mem_falls {x : Edge} (h : x ∈ falls es) : x.target < (cursor es).count := by
  obtain ⟨⟨c, e⟩, hmem, hx⟩ := List.mem_filterMap.mp h
  obtain ⟨before, after, rfl, rfl⟩ := mem_sites_iff.mp hmem
  cases e with
  | instruction handle signature =>
    obtain ⟨previous, -, rfl⟩ := Option.map_eq_some_iff.mp hx
    rw [count_cursor_append]
    exact Nat.lt_add_of_pos_right Nat.succ_pos'
  | _ => cases hx

end Stream

open Recording

/-- An event that registers nothing and adds no instruction. -/
theorem wired_idle {es : List Event} {e : Event} {nodes : Array Node}
    (h : Wired (Stream.registered es) (Stream.falls es) nodes)
    (hregister : Stream.register? (Stream.cursor es) e = none)
    (hfall : Stream.fall? (Stream.cursor es) e = none) :
    Wired (Stream.registered (es ++ [e])) (Stream.falls (es ++ [e])) nodes := by
  rw [Stream.registered_append, Stream.falls_append, hregister, hfall]
  simpa using h

theorem wired_entered {es : List Event} {r : Recording} (hreads : Reads es r)
    (h : Wired (Stream.registered es) (Stream.falls es) r.graph.nodes) (handle : Handle)
    (signature : Option String) :
    Wired (Stream.registered (es ++ [.instruction handle signature]))
      (Stream.falls (es ++ [.instruction handle signature])) (r.entered signature) := by
  have hfresh : Wired (Stream.registered es) (Stream.falls es) (r.fresh signature) := by
    refine h.push rfl rfl (fun b hb ↦ ?_) fun e he ↦ ?_
    · rw [hreads.size]
      exact Stream.node_lt_of_mem_registered hb
    · rw [hreads.size]
      exact Stream.target_lt_of_mem_falls he
  rw [Stream.registered_append, Stream.falls_append, Stream.register?, Stream.fall?,
    ← hreads.current, ← hreads.size, Recording.entered]
  cases r.current with
  | none => simpa using hfresh
  | some previous => exact hfresh.connect ⟨⟨previous, 0⟩, r.graph.nodes.size⟩

theorem wired_step {es : List Event} {r : Recording} (hreads : Reads es r)
    (h : Wired (Stream.registered es) (Stream.falls es) r.graph.nodes) (e : Event) :
    Wired (Stream.registered (es ++ [e])) (Stream.falls (es ++ [e])) (r.step e).graph.nodes := by
  cases e with
  | line n => exact wired_idle h rfl rfl
  | label l s => exact wired_idle h rfl rfl
  | noSuccessor => exact wired_idle h rfl rfl
  | endMethod => exact wired_idle h rfl rfl
  | jump l b =>
    have hnodes : (r.step (.jump l b)).graph.nodes = r.graph.nodes := by
      cases hc : r.current <;> simp [step, hc]
    rw [hnodes]
    exact wired_idle h rfl rfl
  | instruction handle signature => exact wired_entered hreads h handle signature
  | probe p b =>
    cases hc : r.current with
    | none =>
      have hstep : r.step (.probe p b) = r := by simp [step, hc]
      have hnone : Stream.register? (Stream.cursor es) (.probe p b) = none := by
        rw [Stream.register?, ← hreads.current, hc, Option.map_none]
      rw [hstep]
      exact wired_idle h hnone rfl
    | some id =>
      have hnodes : (r.step (.probe p b)).graph.nodes =
          direct (stamp r.graph.nodes id p) ⟨id, b⟩ (fires r.probes p) := by
        simp [step, hc, withNodes]
      have hfall : Stream.fall? (Stream.cursor es) (.probe p b) = none := rfl
      have hstamp : Wired (Stream.registered es) (Stream.falls es) (stamp r.graph.nodes id p) :=
        h.congr (Static.map_modify (g := ({ · with probe := some p })) (fun _ ↦ rfl) _ _)
          (Static.map_modify (g := ({ · with probe := some p })) (fun _ ↦ rfl) _ _)
      rw [hnodes, Stream.registered_append, Stream.falls_append, hfall, Stream.register?,
        ← hreads.current, hc, Option.toList_none, List.append_nil]
      exact hstamp.direct ⟨id, b⟩ (fires r.probes p)

theorem wired_ofStream (probes : Option (Array Bool)) (es : List Event) :
    Wired (Stream.registered es) (Stream.falls es) (ofStream probes es).graph.nodes := by
  induction es using List.reverseRecOn with
  | nil => exact Wired.empty
  | append_singleton es e ih =>
    rw [ofStream_append]
    exact wired_step (reads_ofStream probes es) ih e

theorem isSome_edgeOf? {probes : Option (Array Bool)} {es : List Event} {g : FlowGraph}
    (h : FlowGraph.ofEvents probes es = .ok g) {j : Jump} (hj : j ∈ Stream.jumps es) :
    (Stream.edgeOf? es j).isSome := by
  obtain ⟨-, -, edges, hedges, -, -⟩ := FlowGraph.ofEvents_eq_ok_iff.mp h
  have hreads := reads_ofStream probes es
  rw [hreads.resolve_eq, hreads.jumps] at hedges
  have hmem : Stream.edgeOf? es j ∈ edges.map some :=
    map_eq_of_mapM hedges ▸ List.mem_map_of_mem hj
  obtain ⟨e, -, he⟩ := List.mem_map.mp hmem
  rw [← he]
  rfl

theorem Stream.map_via_edgeOf? {es : List Event} {js : List Jump}
    (h : ∀ j ∈ js, (edgeOf? es j).isSome) :
    (js.filterMap (edgeOf? es)).map (·.via) = js.map fun j ↦ ⟨j.source, j.branch⟩ := by
  induction js with
  | nil => rfl
  | cons j js ih =>
    obtain ⟨e, he⟩ := Option.isSome_iff_exists.mp (h j List.mem_cons_self)
    have hvia : e.via = ⟨j.source, j.branch⟩ := by
      obtain ⟨target, -, rfl⟩ := Option.map_eq_some_iff.mp he
      rfl
    rw [List.filterMap_cons_some he, List.map_cons, List.map_cons, hvia,
      ih fun j' hj' ↦ h j' (List.mem_cons_of_mem j hj')]

/-- The branches and links of a graph: falling through and probes first, then the jumps. -/
theorem FlowGraph.wired_ofEvents {probes : Option (Array Bool)} {es : List Event} {g : FlowGraph}
    (h : FlowGraph.ofEvents probes es = .ok g) :
    Wired (Stream.registered es ++ (Stream.jumps es).map fun j ↦ ⟨j.source, j.branch⟩)
      (Stream.edges es) g.nodes := by
  rw [← Stream.map_via_edgeOf? fun j hj ↦ isSome_edgeOf? h hj, Stream.edges,
    (FlowGraph.ofEvents_eq_ok h).2.2]
  exact (wired_ofStream probes es).foldl_connect _

end ProbeCoverage
