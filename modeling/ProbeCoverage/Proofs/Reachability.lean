import ProbeCoverage.Proofs.Reading

/-!
# Coverage is backward reachability

A branch is executed if a probe on it fired, or if it leads to an instruction of which some branch
is executed. The graph of a stream covers executed branches only, and it covers them all as long
as no instruction can be entered in two ways: of several edges to an instruction its link keeps
the last one.
-/

namespace ProbeCoverage

/-- The least set of branches with the fired ones and with those that lead on to executed ones. -/
inductive Executed (E : Edge → Prop) (F : Branch → Prop) : Branch → Prop
  | fired {b : Branch} : F b → Executed E F b
  | edge {e : Edge} {i : Nat} : E e → Executed E F ⟨e.target, i⟩ → Executed E F e.via

theorem Executed.mono {E E' : Edge → Prop} {F F' : Branch → Prop} (hE : ∀ e, E e → E' e)
    (hF : ∀ b, F b → F' b) {b : Branch} (h : Executed E F b) : Executed E' F' b := by
  induction h with
  | fired hb => exact .fired (hF _ hb)
  | edge he _ ih => exact .edge (hE _ he) ih

/-- What the nodes hold once the edges `E` and the fired branches `F` were registered. -/
structure Explains (E : Edge → Prop) (F : Branch → Prop) (nodes : Array Node) : Prop where
  settled : Settled nodes
  linked : ∀ id b, Linked nodes id b → E ⟨b, id⟩
  reached : ∀ e, E e → ∃ b, Linked nodes e.target b
  fired : ∀ b, F b → Taken nodes b
  sound : ∀ b, Taken nodes b → Executed E F b

namespace Explains

variable {E : Edge → Prop} {F : Branch → Prop} {nodes : Array Node}

theorem of_empty : Explains (fun _ ↦ False) (fun _ ↦ False) #[] where
  settled := settled_empty
  linked _ _ h := by simp [Linked] at h
  reached _ h := h.elim
  fired _ h := h.elim
  sound _ h := by simp [Taken] at h

theorem congr {nodes' : Array Node} (h : Explains E F nodes)
    (htaken : ∀ c, Taken nodes' c ↔ Taken nodes c)
    (hlinked : ∀ id c, Linked nodes' id c ↔ Linked nodes id c)
    (hsize : nodes.size ≤ nodes'.size) : Explains E F nodes' where
  settled := h.settled.congr htaken hlinked hsize
  linked id b hb := h.linked id b ((hlinked id b).mp hb)
  reached e he := (h.reached e he).imp fun b ↦ (hlinked e.target b).mpr
  fired b hb := (htaken b).mpr (h.fired b hb)
  sound b hb := h.sound b ((htaken b).mp hb)

theorem iff_congr {E' : Edge → Prop} {F' : Branch → Prop} (h : Explains E F nodes)
    (hE : ∀ e, E' e ↔ E e) (hF : ∀ b, F' b ↔ F b) : Explains E' F' nodes where
  settled := h.settled
  linked id b hb := (hE _).mpr (h.linked id b hb)
  reached e he := h.reached e ((hE e).mp he)
  fired b hb := h.fired b ((hF b).mp hb)
  sound b hb := (h.sound b hb).mono (fun e ↦ (hE e).mpr) fun c ↦ (hF c).mpr

/-- Links lead from executed branches to executed branches. -/
theorem executed_of_trail (hlink : ∀ id c, Linked nodes id c → E ⟨c, id⟩) {b c : Branch}
    (hb : Executed E F b) (ht : Trail nodes b c) : Executed E F c := by
  induction ht with
  | start => exact hb
  | @step c d _ hd ih => exact .edge (e := ⟨d, c.node⟩) (hlink _ _ hd) ih

theorem direct (h : Explains E F nodes) {b : Branch} (fired : Bool) (hb : b.node < nodes.size) :
    Explains E (fun c ↦ F c ∨ fired = true ∧ c = b) (direct nodes b fired) := by
  have hlinked : ∀ id c, Linked (ProbeCoverage.direct nodes b fired) id c ↔ Linked nodes id c :=
    fun id c ↦ linked_direct
  refine ⟨settled_direct h.settled fired hb, fun id c hc ↦ ?_, fun e he ↦ ?_, fun c hc ↦ ?_,
    fun c hc ↦ ?_⟩
  · exact h.linked id c ((hlinked id c).mp hc)
  · exact (h.reached e he).imp fun c ↦ (hlinked e.target c).mpr
  · rw [taken_direct h.settled]
    rcases hc with hc | ⟨hf, rfl⟩
    · exact Or.inl (h.fired c hc)
    · exact Or.inr ⟨hf, .start, hb⟩
  · rw [taken_direct h.settled] at hc
    rcases hc with hc | ⟨hf, ht, -⟩
    · exact (h.sound c hc).mono (fun _ ↦ id) fun _ ↦ Or.inl
    · refine executed_of_trail (fun id d hd ↦ ?_) (.fired (Or.inr ⟨hf, rfl⟩)) ht
      exact h.linked id d (linked_addBranch.mp hd)

theorem connect (h : Explains E F nodes) {e : Edge} (hvia : e.via.node < nodes.size)
    (htarget : e.target < nodes.size) :
    Explains (fun x ↦ E x ∨ x = e) F (connect nodes e) := by
  have hattach : ∀ id c, Linked (attach nodes e) id c → E ⟨c, id⟩ ∨ (⟨c, id⟩ : Edge) = e :=
    fun id c hc ↦ by
      rw [linked_attach] at hc
      split at hc
      next heq =>
        obtain ⟨rfl, -⟩ := hc
        exact Or.inr (heq ▸ rfl)
      next => exact Or.inl (h.linked id c hc)
  refine ⟨settled_connect h.settled hvia, fun id c hc ↦ ?_, fun x hx ↦ ?_, fun b hb ↦ ?_,
    fun c hc ↦ ?_⟩
  · exact hattach id c (linked_connect.mp hc)
  · by_cases ht : x.target = e.target
    · refine ⟨e.via, linked_connect.mpr (linked_attach.mpr ?_)⟩
      rw [if_pos ht]
      exact ⟨rfl, ht ▸ htarget⟩
    · have hx' : E x := hx.resolve_right fun hxe ↦ ht (hxe ▸ rfl)
      obtain ⟨b, hb⟩ := h.reached x hx'
      refine ⟨b, linked_connect.mpr (linked_attach.mpr ?_)⟩
      rwa [if_neg ht]
  · exact (taken_connect h.settled).mpr (Or.inl (h.fired b hb))
  · rcases (taken_connect h.settled).mp hc with hc | ⟨⟨i, hi⟩, ht, -⟩
    · exact (h.sound c hc).mono (fun _ ↦ Or.inl) fun _ ↦ id
    · refine executed_of_trail hattach ?_ ht
      exact .edge (Or.inr rfl) ((h.sound _ hi).mono (fun _ ↦ Or.inl) fun _ ↦ id)

/-- If every instruction has one way in, the links are all the edges, and coverage is complete. -/
theorem taken_of_executed (h : Explains E F nodes)
    (hone : ∀ e e', E e → E e' → e.target = e'.target → e = e') {b : Branch}
    (hb : Executed E F b) : Taken nodes b := by
  induction hb with
  | fired hb => exact h.fired _ hb
  | @edge e i he _ ih =>
    obtain ⟨c, hc⟩ := h.reached e he
    have hsame : (⟨c, e.target⟩ : Edge) = e := hone _ _ (h.linked _ _ hc) he rfl
    have hvia : c = e.via := congrArg Edge.via hsame
    exact hvia ▸ h.settled.closed e.target c ih.covered hc

end Explains

/-! ## Streams -/

namespace Stream

def Fired (probes : Option (Array Bool)) (es : List Event) (b : Branch) : Prop :=
  ∃ i, (b, i) ∈ Stream.probes es ∧ fires probes i = true

theorem mem_falls_append {es : List Event} {e : Event} {x : Edge} :
    x ∈ falls (es ++ [e]) ↔ x ∈ falls es ∨ fall? (cursor es) e = some x := by
  rw [falls_append, List.mem_append, Option.mem_toList]

theorem fired_append {probes : Option (Array Bool)} {es : List Event} {e : Event} {b : Branch} :
    Fired probes (es ++ [e]) b ↔
      Fired probes es b ∨ ∃ i, probe? (cursor es) e = some (b, i) ∧ fires probes i = true := by
  simp only [Fired, probes_append, List.mem_append, Option.mem_toList, or_and_right, exists_or]

end Stream

open Recording

variable {probes : Option (Array Bool)} {es : List Event}

/-- An event that is neither an instruction nor a probe explains what the events before it did. -/
theorem explains_idle {nodes : Array Node} {e : Event}
    (h : Explains (· ∈ Stream.falls es) (Stream.Fired probes es) nodes)
    (hfall : Stream.fall? (Stream.cursor es) e = none)
    (hprobe : Stream.probe? (Stream.cursor es) e = none) :
    Explains (· ∈ Stream.falls (es ++ [e])) (Stream.Fired probes (es ++ [e])) nodes := by
  refine h.iff_congr (fun x ↦ ?_) fun b ↦ ?_
  · simp [Stream.mem_falls_append, hfall]
  · simp [Stream.fired_append, hprobe]

theorem explains_entered {r : Recording} {E : Edge → Prop} {F : Branch → Prop}
    (h : Explains E F r.graph.nodes) (signature : Option String)
    (hin : ∀ previous, r.current = some previous → previous < r.graph.nodes.size) :
    Explains (fun x ↦ E x ∨ r.current.map (fun previous ↦ ⟨⟨previous, 0⟩, r.graph.nodes.size⟩) =
      some x) F (r.entered signature) := by
  have hfresh : Explains E F (r.fresh signature) :=
    h.congr (fun _ ↦ taken_push rfl) (fun _ _ ↦ linked_push rfl) (by simp [fresh])
  unfold entered
  cases hcur : r.current with
  | none => simpa using hfresh
  | some previous =>
    have hsize : (r.fresh signature).size = r.graph.nodes.size + 1 := by simp [fresh]
    have hlt := hin previous hcur
    refine (hfresh.connect ?_ ?_).iff_congr (fun x ↦ ?_) fun _ ↦ Iff.rfl
    · exact hsize ▸ Nat.lt_succ_of_lt hlt
    · exact hsize ▸ Nat.lt_succ_self _
    · rw [Option.map_some, Option.some.injEq, eq_comm (b := x)]

theorem explains_step {r : Recording} {e : Event} (hreads : Reads es r)
    (hprobes : r.probes = probes) (hadm : Admits r e)
    (h : Explains (· ∈ Stream.falls es) (Stream.Fired probes es) r.graph.nodes) :
    Explains (· ∈ Stream.falls (es ++ [e])) (Stream.Fired probes (es ++ [e]))
      (r.step e).graph.nodes := by
  cases e with
  | line n => exact explains_idle h rfl rfl
  | label l s => exact explains_idle h rfl rfl
  | noSuccessor => exact explains_idle h rfl rfl
  | endMethod => exact explains_idle h rfl rfl
  | jump l b =>
    obtain ⟨id, hid, -⟩ := hadm
    have hsame : (r.step (.jump l b)).graph = r.graph := by simp [step, hid]
    rw [hsame]
    exact explains_idle h rfl rfl
  | instruction handle signature =>
    have hin : ∀ previous, r.current = some previous → previous < r.graph.nodes.size :=
      fun previous hp ↦ by
        rw [hreads.size]
        exact Stream.current_lt_count (hreads.current ▸ hp)
    refine (explains_entered h signature hin).iff_congr (fun x ↦ ?_) fun b ↦ ?_
    · rw [Stream.mem_falls_append, Stream.fall?, ← hreads.size, ← hreads.current]
    · simp [Stream.fired_append, Stream.probe?]
  | probe p b =>
    obtain ⟨id, hid, -, -, hroom⟩ := hadm
    have hnodes : (r.step (.probe p b)).graph.nodes =
        direct (stamp r.graph.nodes id p) ⟨id, b⟩ (fires probes p) := by
      simp [step, hid, withNodes, hprobes]
    have hstamp : Explains (· ∈ Stream.falls es) (Stream.Fired probes es)
        (stamp r.graph.nodes id p) :=
      h.congr (fun _ ↦ taken_modify fun _ ↦ rfl) (fun _ _ ↦ linked_modify fun _ ↦ rfl)
        (by simp [stamp])
    rw [hnodes]
    refine (hstamp.direct (fires probes p) ?_).iff_congr (fun x ↦ ?_) fun c ↦ ?_
    · simpa [stamp] using hroom.lt_size
    · simp [Stream.mem_falls_append, Stream.fall?]
    · simp only [Stream.fired_append, Stream.probe?, ← hreads.current, hid, Option.map_some,
        Option.some.injEq, Prod.mk.injEq]
      refine or_congr Iff.rfl ⟨?_, ?_⟩
      · rintro ⟨i, ⟨rfl, rfl⟩, hf⟩
        exact ⟨hf, rfl⟩
      · rintro ⟨hf, rfl⟩
        exact ⟨p, ⟨rfl, rfl⟩, hf⟩

theorem explains_ofStream (h : Admitted { probes } es) :
    Explains (· ∈ Stream.falls es) (Stream.Fired probes es) (ofStream probes es).graph.nodes := by
  induction es using List.reverseRecOn with
  | nil =>
    refine Explains.of_empty.iff_congr (fun x ↦ ?_) fun b ↦ ?_
    · simp [Stream.falls, Stream.sites, Stream.sitesFrom]
    · simp [Stream.Fired, Stream.probes, Stream.sites, Stream.sitesFrom]
  | append_singleton es e ih =>
    obtain ⟨hes, -, hadm⟩ := admitted_append.mp h
    rw [ofStream_append]
    exact explains_step (reads_ofStream probes es) (probes_ofStream probes es) hadm (ih hes)

theorem explains_foldl_connect {E : Edge → Prop} {F : Branch → Prop} {nodes : Array Node}
    {edges : List Edge} (h : Explains E F nodes) (hcon : Connectable nodes edges) :
    Explains (fun x ↦ E x ∨ x ∈ edges) F (edges.foldl connect nodes) := by
  induction edges generalizing E nodes with
  | nil => simpa using h
  | cons e edges ih =>
    obtain ⟨hroom, htarget, hcon⟩ := hcon
    refine (ih (h.connect hroom.lt_size htarget) hcon).iff_congr (fun x ↦ ?_) fun _ ↦ Iff.rfl
    rw [List.mem_cons, or_assoc]

/-- Both phases together: falling through and probes first, then the jumps. -/
theorem explains_ofEvents {g : FlowGraph} (h : FlowGraph.ofEvents probes es = .ok g) :
    Explains (· ∈ Stream.edges es) (Stream.Fired probes es) g.nodes := by
  obtain ⟨hadm, hcon, hnodes⟩ := FlowGraph.ofEvents_eq_ok h
  rw [hnodes]
  refine (explains_foldl_connect (explains_ofStream hadm) hcon).iff_congr (fun x ↦ ?_)
    fun _ ↦ Iff.rfl
  rw [Stream.edges, List.mem_append]

theorem FlowGraph.executed_of_mem_covered {g : FlowGraph}
    (h : FlowGraph.ofEvents probes es = .ok g) {id : NodeId} {n : Node} (hn : g.node? id = some n)
    {i : Nat} (hi : i ∈ n.covered) :
    Executed (· ∈ Stream.edges es) (Stream.Fired probes es) ⟨id, i⟩ := by
  refine (explains_ofEvents h).sound _ ?_
  replace hn : g.nodes[id]? = some n := hn
  simpa [Taken, hn] using hi

/-- The graph of a stream covers only executed branches. If no two edges lead to the same
instruction, it covers exactly these. -/
theorem FlowGraph.covered_iff_executed {g : FlowGraph}
    (h : FlowGraph.ofEvents probes es = .ok g) {id : NodeId} {n : Node} (hn : g.node? id = some n) :
    (∀ i ∈ n.covered, Executed (· ∈ Stream.edges es) (Stream.Fired probes es) ⟨id, i⟩) ∧
      ((∀ e ∈ Stream.edges es, ∀ e' ∈ Stream.edges es, e.target = e'.target → e = e') →
        ∀ i, i ∈ n.covered ↔
          Executed (· ∈ Stream.edges es) (Stream.Fired probes es) ⟨id, i⟩) := by
  have hx := explains_ofEvents h
  have htaken : ∀ i, Taken g.nodes ⟨id, i⟩ ↔ i ∈ n.covered := fun i ↦ by
    replace hn : g.nodes[id]? = some n := hn
    simp [Taken, hn]
  refine ⟨fun i hi ↦ hx.sound _ ((htaken i).mpr hi), fun hone i ↦ ⟨fun hi ↦ ?_, fun hi ↦ ?_⟩⟩
  · exact hx.sound _ ((htaken i).mpr hi)
  · exact (htaken i).mp (hx.taken_of_executed (fun e e' he he' ↦ hone e he e' he') hi)

/-- Two instructions in a loop, with a probe on the second. -/
def loopStream : List Event :=
  [.label ⟨0⟩ true, .instruction ⟨1⟩ none, .instruction ⟨2⟩ none, .jump ⟨0⟩ 1, .probe 0 0,
    .endMethod]

theorem covered_iff_executed_loopStream :
    ∃ g n, FlowGraph.ofEvents (some #[true]) loopStream = .ok g ∧ g.node? 1 = some n ∧
      ∀ i, i ∈ n.covered ↔ Executed (· ∈ Stream.edges loopStream)
        (Stream.Fired (some #[true]) loopStream) ⟨1, i⟩ := by
  have hsome : ((FlowGraph.ofEvents (some #[true]) loopStream).toOption.bind
      (·.node? 1)).isSome = true := by decide +kernel
  cases hg : FlowGraph.ofEvents (some #[true]) loopStream with
  | error e => simp [hg, Except.toOption] at hsome
  | ok g =>
    rw [hg] at hsome
    obtain ⟨n, hn⟩ := Option.isSome_iff_exists.mp hsome
    exact ⟨g, n, rfl, hn, (FlowGraph.covered_iff_executed hg hn).2 (by decide)⟩

end ProbeCoverage
