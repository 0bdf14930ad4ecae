import ProbeCoverage.Proofs.Surroundings

/-!
# The graph that a stream describes

A stream describes its graph without telling how to build it: each instruction by the events around
it, the jumps by their places among the events. The graph of a stream is the one it describes, and
the only one but for what is covered; the probe array has no part in it.
-/

namespace ProbeCoverage

namespace Stream

def line? : Event → Option Nat
  | .line number => some number
  | _ => none

def lines (es : List Event) : List Nat := es.filterMap line?

/-- The instruction between the events `before` and `after`, without its coverage. -/
def described (es : List Event) (js : List Jump) (before : List Event) (signature : Option String)
    (after : List Event) : Node where
  line := (lines before).getLast?
  branches := (own after).countP (fun e ↦ (branch? e).isSome) + if fallsThrough after then 1 else 0
  link := (entries es js before).getLast?
  signature
  probe := ((own after).filterMap probeId?).getLast?

structure Describes (es : List Event) (g : FlowGraph) : Prop where
  handles : g.handles.toList = handles es
  ids : ∀ handle id, g.id? handle = some id ↔ (Stream.handles es)[id]? = some handle
  size : g.nodes.size = (Stream.handles es).length
  node : ∀ before handle signature after, es = before ++ .instruction handle signature :: after →
    (outlines g.nodes)[(Stream.handles before).length]? =
      some (described es g.jumps.toList before signature after)
  jumpCount : g.jumps.size = es.countP isJump
  /-- A jump belongs to the instruction before it, and its label leads to a single one. -/
  jump : ∀ before target branch after, es = before ++ .jump target branch :: after →
    HasCurrent before ∧
      g.jumps[before.countP isJump]? =
        some ⟨(Stream.handles before).length - 1, target, branch⟩ ∧
      ∃! id, LeadsTo es target id

/-! ## No two graphs are described -/

theorem exists_split_of_lt_countP {α : Type} {p : α → Bool} {l : List α} {k : Nat}
    (h : k < l.countP p) :
    ∃ before x after, l = before ++ x :: after ∧ p x = true ∧ before.countP p = k := by
  induction l using List.reverseRecOn with
  | nil => exact absurd h (Nat.not_lt_zero k)
  | append_singleton l x ih =>
    rcases Nat.lt_or_ge k (l.countP p) with hlt | hge
    · obtain ⟨before, y, after, rfl, hy, hk⟩ := ih hlt
      exact ⟨before, y, after ++ [x], by simp, hy, hk⟩
    · rw [List.countP_append, List.countP_singleton] at h
      split at h
      next hx => exact ⟨l, x, [], rfl, hx, by omega⟩
      next => omega

/-- Every place among the instructions is that of one. -/
theorem exists_instruction {es : List Event} {id : NodeId} (h : id < (handles es).length) :
    ∃ before handle signature after, es = before ++ .instruction handle signature :: after ∧
      (handles before).length = id := by
  rw [handles, List.length_filterMap_eq_countP] at h
  obtain ⟨before, e, after, rfl, he, hid⟩ := exists_split_of_lt_countP h
  rw [← List.length_filterMap_eq_countP] at hid
  cases e with
  | instruction handle signature => exact ⟨before, handle, signature, after, rfl, hid⟩
  | _ => cases he

theorem exists_jump {es : List Event} {k : Nat} (h : k < es.countP isJump) :
    ∃ before target branch after, es = before ++ .jump target branch :: after ∧
      before.countP isJump = k := by
  obtain ⟨before, e, after, rfl, he, hk⟩ := exists_split_of_lt_countP h
  cases e with
  | jump target branch => exact ⟨before, target, branch, after, rfl, hk⟩
  | _ => cases he

namespace Describes

variable {es : List Event} {g g' : FlowGraph}

theorem jumps_eq (h : Describes es g) (h' : Describes es g') : g'.jumps = g.jumps := by
  apply Array.ext_getElem?
  intro k
  by_cases hk : k < es.countP isJump
  · obtain ⟨before, target, branch, after, heq, rfl⟩ := exists_jump hk
    rw [(h.jump before target branch after heq).2.1, (h'.jump before target branch after heq).2.1]
  · have hle : ∀ {g}, Describes es g → g.jumps.size ≤ k := fun h ↦ by
      rw [h.jumpCount]
      exact Nat.not_lt.mp hk
    rw [Array.getElem?_eq_none (hle h), Array.getElem?_eq_none (hle h')]

theorem outlines_eq (h : Describes es g) (h' : Describes es g') :
    outlines g'.nodes = outlines g.nodes := by
  apply Array.ext_getElem?
  intro id
  by_cases hid : id < (Stream.handles es).length
  · obtain ⟨before, handle, signature, after, heq, rfl⟩ := exists_instruction hid
    rw [h.node before handle signature after heq, h'.node before handle signature after heq,
      h.jumps_eq h']
  · have hle : ∀ {g}, Describes es g → (outlines g.nodes).size ≤ id := fun h ↦ by
      rw [outlines, Array.size_map, h.size]
      exact Nat.not_lt.mp hid
    rw [Array.getElem?_eq_none (hle h), Array.getElem?_eq_none (hle h')]

theorem ids_eq (h : Describes es g) (h' : Describes es g') : g'.ids = g.ids := by
  apply Std.ExtTreeMap.ext_getElem?
  intro handle
  have hiff : ∀ id, g'.id? handle = some id ↔ g.id? handle = some id := fun id ↦
    (h'.ids handle id).trans (h.ids handle id).symm
  exact Option.ext hiff

/-- A stream leaves open only what is covered. -/
theorem outline_eq (h : Describes es g) (h' : Describes es g') : g'.outline = g.outline := by
  have hhandles : g'.handles = g.handles := by
    rw [← Array.toList_inj, h'.handles, h.handles]
  rw [FlowGraph.outline, FlowGraph.outline, h.outlines_eq h', hhandles, h.ids_eq h', h.jumps_eq h']

end Describes

end Stream

/-! ## The recording of a split stream -/

open Recording

theorem map_step {β : Type} {f : Node → β} (hf : Static f)
    (hprobe : ∀ n p, f { n with probe := some p } = f n) (r : Recording) (e : Event) :
    ((r.step e).graph.nodes.map f).toList = (r.graph.nodes.map f).toList ++
      ((Stream.signature? e).map fun signature ↦ f { line := r.line, signature }).toList := by
  cases e with
  | instruction handle signature =>
    change ((r.entered signature).map f).toList = _
    rw [map_entered hf, Array.toList_push]
    rfl
  | probe p b =>
    cases hc : r.current with
    | none => simp [step, hc, Stream.signature?]
    | some id =>
      have hnodes : (r.step (.probe p b)).graph.nodes =
          direct (stamp r.graph.nodes id p) ⟨id, b⟩ (fires r.probes p) := by
        simp [step, hc, withNodes]
      rw [hnodes, hf.map_direct, stamp, Static.map_modify fun n ↦ hprobe n p]
      exact (List.append_nil _).symm
  | jump l b => cases hc : r.current <;> simp [step, hc, Stream.signature?]
  | _ => simp [step, Stream.signature?]

theorem line_step (r : Recording) (e : Event) :
    (r.step e).line = (Stream.line? e).or r.line := by
  cases e with
  | jump l b => cases hc : r.current <;> simp [step, hc, Stream.line?]
  | probe p b => cases hc : r.current <;> simp [step, hc, withNodes, Stream.line?]
  | _ => rfl

theorem line_ofStream (probes : Option (Array Bool)) (es : List Event) :
    (ofStream probes es).line = (Stream.lines es).getLast? := by
  induction es using List.reverseRecOn with
  | nil => rfl
  | append_singleton es e ih =>
    have hlines : Stream.lines (es ++ [e]) = Stream.lines es ++ (Stream.line? e).toList :=
      Stream.filterMap_append_singleton Stream.line? es e
    rw [ofStream_append, line_step, ih, hlines, List.getLast?_append]
    cases Stream.line? e <;> rfl

/-- What does not change once an instruction is recorded. -/
theorem getElem?_ofStream {β : Type} {f : Node → β} (hf : Static f)
    (hprobe : ∀ n p, f { n with probe := some p } = f n) (probes : Option (Array Bool))
    (before : List Event) (handle : Handle) (signature : Option String) (after : List Event) :
    ((ofStream probes (before ++ .instruction handle signature :: after)).graph.nodes.map
        f)[(Stream.handles before).length]? =
      some (f { line := (Stream.lines before).getLast?, signature }) := by
  have hsize : ((ofStream probes before).graph.nodes.map f).toList.length =
      (Stream.handles before).length := by
    rw [Array.length_toList, Array.size_map, (reads_ofStream probes before).size,
      Stream.count_cursor]
  rw [← Array.getElem?_toList]
  -- the instruction is the last one at first; whatever comes after it only appends
  induction after using List.reverseRecOn with
  | nil =>
    rw [ofStream_append, map_step hf hprobe, line_ofStream, ← hsize]
    exact List.getElem?_concat_length
  | append_singleton after e ih =>
    rw [← List.cons_append, ← List.append_assoc, ofStream_append, map_step hf hprobe,
      List.getElem?_append_left (List.getElem?_eq_some_iff.mp ih).1, ih]

/-! ## The jumps of a split stream -/

theorem admitted_split {r : Recording} {before after : List Event} {e : Event}
    (h : Admitted r (before ++ e :: after)) :
    Admitted r before ∧ Admits (before.foldl step r) e := by
  induction before generalizing r with
  | nil => exact ⟨trivial, h.2.1⟩
  | cons f before ih =>
    obtain ⟨hended, hadm, hrest⟩ := h
    have hsplit := ih hrest
    exact ⟨⟨hended, hadm, hsplit.1⟩, hsplit.2⟩

namespace Stream

variable {probes : Option (Array Bool)} {before after : List Event}

/-- A jump that is taken follows its instruction. -/
theorem current_of_admits_jump {target : Label} {branch : Nat}
    (h : Admits (ofStream probes before) (.jump target branch)) :
    HasCurrent before ∧ (cursor before).current = some ((handles before).length - 1) := by
  obtain ⟨id, hid, -⟩ := h
  rw [(reads_ofStream probes before).current] at hid
  obtain ⟨hcurrent, hsucc⟩ := current_eq_some_iff.mp hid
  refine ⟨hcurrent, ?_⟩
  rw [hid, ← hsucc]
  rfl

theorem length_jumps (h : Admitted { probes } before) :
    (jumps before).length = before.countP isJump := by
  induction before using List.reverseRecOn with
  | nil => rfl
  | append_singleton es e ih =>
    obtain ⟨hes, -, hadm⟩ := admitted_append.mp h
    rw [jumps_append, List.length_append, List.countP_append, ih hes]
    cases e with
    | jump l b =>
      rw [jump?, (current_of_admits_jump hadm).2]
      rfl
    | _ => rfl

theorem getElem?_jumps {target : Label} {branch : Nat}
    (h : Admitted { probes } (before ++ .jump target branch :: after)) :
    (jumps (before ++ .jump target branch :: after))[before.countP isJump]? =
      some ⟨(handles before).length - 1, target, branch⟩ := by
  obtain ⟨hbefore, hadm⟩ := admitted_split h
  have hcurrent := (current_of_admits_jump hadm).2
  rw [← length_jumps hbefore, jumps, sites, sitesFrom_append_cons, ← sites, ← cursor,
    List.filterMap_append, ← jumps]
  simp [jump?, hcurrent]

end Stream

/-! ## The graph of a stream -/

namespace FlowGraph

variable {probes : Option (Array Bool)} {es : List Event} {g : FlowGraph}

theorem jumps_ofEvents (h : FlowGraph.ofEvents probes es = .ok g) :
    g.jumps.toList = Stream.jumps es := by
  obtain ⟨-, -, _, -, -, rfl⟩ := FlowGraph.ofEvents_eq_ok_iff.mp h
  exact (reads_ofStream probes es).jumps

theorem outline_instruction {before after : List Event} {handle : Handle}
    {signature : Option String}
    (h : FlowGraph.ofEvents probes (before ++ .instruction handle signature :: after) = .ok g) :
    (outlines g.nodes)[(Stream.handles before).length]? =
      some (Stream.described (before ++ .instruction handle signature :: after) g.jumps.toList
        before signature after) := by
  have hlt : (Stream.handles before).length < g.nodes.size := by
    rw [size_ofEvents h, Stream.count_cursor_append, Stream.count_cursor]
    exact Nat.lt_add_of_pos_right (by simp [Stream.handles, Stream.handle?])
  obtain ⟨n, hn⟩ : ∃ n, g.nodes[(Stream.handles before).length]? = some n :=
    ⟨_, Array.getElem?_eq_getElem hlt⟩
  have hget : ∀ {β : Type} (f : Node → β),
      (g.nodes.map f)[(Stream.handles before).length]? = some (f n) := fun f ↦ by
    rw [Array.getElem?_map, hn, Option.map_some]
  have hstatic : Static fun n : Node ↦ (n.line, n.signature) := fun _ _ _ _ ↦ rfl
  have hheader := getElem?_ofStream hstatic (fun _ _ ↦ rfl) probes before handle signature after
  rw [← map_ofEvents hstatic h, hget] at hheader
  have hprobe := probe_ofEvents h hlt
  rw [hget, Stream.lastProbe?_instruction] at hprobe
  have hbranches := (wired_ofEvents h).branches _ hlt
  rw [hget, List.countP_append, List.countP_map] at hbranches
  have hlink := (wired_ofEvents h).link _ hlt
  rw [hget, ← List.getLast?_map, Stream.filter_edges_instruction, ← jumps_ofEvents h] at hlink
  have hbranches' := (Option.some.inj hbranches).trans
    (Stream.countP_branches before handle signature after)
  obtain ⟨hline, hsignature⟩ := Prod.mk.inj (Option.some.inj hheader)
  rw [outlines, hget, Option.some.injEq, Node.outline, Stream.described, Node.mk.injEq]
  exact ⟨hline, hbranches', rfl, Option.some.inj hlink, hsignature, Option.some.inj hprobe⟩

theorem describes (h : FlowGraph.ofEvents probes es = .ok g) : Stream.Describes es g where
  handles := handles_ofEvents h
  ids handle id := id?_ofEvents h
  size := by rw [size_ofEvents h, Stream.count_cursor]
  node before handle signature after heq := by
    subst heq
    exact outline_instruction h
  jumpCount := by
    rw [← Array.length_toList, jumps_ofEvents h, Stream.length_jumps (ofEvents_eq_ok h).1]
  jump before target branch after heq := by
    subst heq
    have hadm := (ofEvents_eq_ok h).1
    have hjump := Stream.getElem?_jumps hadm
    refine ⟨(Stream.current_of_admits_jump (admitted_split hadm).2).1, ?_, ?_⟩
    · rw [← Array.getElem?_toList, jumps_ofEvents h, hjump]
    · obtain ⟨e, he⟩ := Option.isSome_iff_exists.mp
        (isSome_edgeOf? h (List.mem_of_getElem? hjump))
      obtain ⟨id, hid, -⟩ := Option.map_eq_some_iff.mp he
      have hleads := Stream.place?_eq_some_iff.mp hid
      exact ⟨id, hleads, fun id' hid' ↦ hid'.unique hleads⟩

/-- The graph of a stream is the one that the stream describes, and but for what is covered there
is no other; any probe array that is long enough, or none, gives the same. -/
theorem describes_ofEvents (h : FlowGraph.ofEvents probes es = .ok g) :
    Stream.Describes es g ∧ (∀ g', Stream.Describes es g' → g'.outline = g.outline) ∧
      ∀ probes', (∀ i, Stream.Uses es i → Readable probes' i) →
        ∃ g', FlowGraph.ofEvents probes' es = .ok g' ∧ g'.outline = g.outline :=
  ⟨describes h, fun _ h' ↦ (describes h).outline_eq h', fun _ ↦ ofEvents_of_readable h⟩

/-- A label that is bound twice and then left without an instruction, a break of the flow, and two
probes on one instruction. -/
def rebound : List Event :=
  [.label ⟨0⟩ true, .line 1, .instruction ⟨5⟩ none, .jump ⟨1⟩ 1, .label ⟨1⟩ true, .line 2,
    .instruction ⟨6⟩ none, .probe 1 0, .probe 0 1, .label ⟨1⟩ false, .instruction ⟨7⟩ none,
    .jump ⟨0⟩ 0, .noSuccessor, .label ⟨1⟩ true, .endMethod]

theorem describes_ofEvents_rebound :
    ∃ g, FlowGraph.ofEvents (some #[true, false]) rebound = .ok g ∧ Stream.Describes rebound g ∧
      g.nodes.map (fun n ↦ (n.branches, n.link, n.probe)) =
        #[(2, some ⟨2, 0⟩, none), (2, some ⟨0, 0⟩, some 0), (1, some ⟨0, 1⟩, none)] ∧
      ∃ g', FlowGraph.ofEvents none rebound = .ok g' ∧ g'.outline = g.outline := by
  obtain ⟨g, hg⟩ : ∃ g, FlowGraph.ofEvents (some #[true, false]) rebound = .ok g :=
    exists_eq_ok (by decide +kernel)
  have hnodes : (FlowGraph.ofEvents (some #[true, false]) rebound).map
      (fun g ↦ g.nodes.map fun n ↦ (n.branches, n.link, n.probe)) =
        .ok #[(2, some ⟨2, 0⟩, none), (2, some ⟨0, 0⟩, some 0), (1, some ⟨0, 1⟩, none)] := by
    decide +kernel
  rw [hg] at hnodes
  obtain ⟨hdescribes, -, hother⟩ := describes_ofEvents hg
  exact ⟨g, hg, hdescribes, Except.ok.inj hnodes, hother none fun i _ ↦ Recording.readable_none i⟩

end FlowGraph

end ProbeCoverage
