import ProbeCoverage.Proofs.Additivity
import ProbeCoverage.Proofs.Objections

/-!
# Which streams have a graph

A stream has a graph exactly if it is well-formed. Otherwise it is refused for the first thing that
is wrong with it: the events are looked at in their order, then the end of the stream, and only then
the labels of the jumps.
-/

namespace ProbeCoverage

namespace Stream

/-! ## Well-formed streams -/

def handle? : Event → Option Handle
  | .instruction handle _ => some handle
  | _ => none

/-- The instructions, by their handles. -/
def handles (es : List Event) : List Handle := es.filterMap handle?

/-- The branch that an event declares. -/
def branch? : Event → Option Nat
  | .jump _ branch | .probe _ branch => some branch
  | _ => none

/-- What follows is not reached by falling through. -/
def Breaks (e : Event) : Prop := e = .noSuccessor ∨ ∃ l, e = .label l false

/-- An instruction stands in the list, and nothing after it breaks the flow. -/
def HasCurrent (es : List Event) : Prop :=
  ∃ handle signature before after, es = before ++ .instruction handle signature :: after ∧
    ∀ e ∈ after, ¬ Breaks e

/-- The label occurs somewhere before an instruction. -/
def Marked (es : List Event) (l : Label) : Prop :=
  ∃ before successor after, es = before ++ .label l successor :: after ∧
    ∃ handle signature, .instruction handle signature ∈ after

structure WellFormed (probes : Option (Array Bool)) (es : List Event) : Prop where
  ends : ∃ body, es = body ++ [.endMethod] ∧ .endMethod ∉ body
  distinct : (handles es).Nodup
  current : ∀ before e after, es = before ++ e :: after → (branch? e).isSome → HasCurrent before
  branches : ∀ e ∈ es, ∀ branch, branch? e = some branch → branch ≤ maxBranch
  readable : ∀ i, Uses es i → Readable probes i
  marked : ∀ target branch, .jump target branch ∈ es → Marked es target

/-! ## What is wrong with a stream -/

def follow (current : Option Handle) : Event → Option Handle
  | .instruction handle _ => some handle
  | .label _ false | .noSuccessor => none
  | _ => current

/-- The instruction that the next event belongs to. -/
def currentHandle? (es : List Event) : Option Handle := es.foldl follow none

def branchOffence? (before : List Event) (branch : Nat) : Option Fault :=
  match currentHandle? before with
  | none => some .noCurrentInstruction
  | some handle => if maxBranch < branch then some (.branchOutOfRange handle branch) else none

def liveOffence? (probes : Option (Array Bool)) (before : List Event) : Event → Option Fault
  | .instruction handle _ =>
    if handle ∈ handles before then some (.duplicateInstruction handle) else none
  | .jump _ branch => branchOffence? before branch
  | .probe probe branch => (branchOffence? before branch).or (unreadable? probes probe)
  | .line _ | .label _ _ | .noSuccessor | .endMethod => none

/-- What is wrong with an event that stands after the events `before`. -/
def offence? (probes : Option (Array Bool)) (before : List Event) (e : Event) : Option Fault :=
  if .endMethod ∈ before then some (.afterEnd e) else liveOffence? probes before e

def offencesAfter (probes : Option (Array Bool)) : List Event → List Event → List Fault
  | _, [] => []
  | before, e :: es => (offence? probes before e).toList ++ offencesAfter probes (before ++ [e]) es

def unresolved? (place : Label → Option NodeId) (j : Jump) : Option Fault :=
  if (place j.target).isSome then none else some (.unresolvedLabel j.target)

/-- All that is wrong with a stream: with its events, one after the other, with its end, and with
the jumps that it declares. -/
def offences (probes : Option (Array Bool)) (es : List Event) : List Fault :=
  offencesAfter probes [] es ++
    ((if .endMethod ∈ es then [] else [.unterminated es.length]) ++
      (jumps es).filterMap (unresolved? (place? es)))

/-! ## Reading instructions, jumps and labels -/

variable {es : List Event}

theorem handles_append (es es' : List Event) : handles (es ++ es') = handles es ++ handles es' :=
  List.filterMap_append

theorem handles_append_singleton (es : List Event) (e : Event) :
    handles (es ++ [e]) = handles es ++ (handle? e).toList :=
  filterMap_append_singleton handle? es e

theorem mem_handles_iff {handle : Handle} :
    handle ∈ handles es ↔ ∃ signature, .instruction handle signature ∈ es := by
  rw [handles, List.mem_filterMap]
  constructor
  · rintro ⟨e, he, hhandle⟩
    cases e with
    | instruction h signature =>
      cases hhandle
      exact ⟨signature, he⟩
    | _ => cases hhandle
  · rintro ⟨signature, he⟩
    exact ⟨_, he, rfl⟩

/-- Instructions are counted by their handles. -/
theorem count_cursor (es : List Event) : (cursor es).count = (handles es).length := by
  induction es using List.reverseRecOn with
  | nil => rfl
  | append_singleton es e ih =>
    rw [cursor_append, handles_append_singleton, List.length_append, ← ih]
    cases e with
    | label l s => cases s <;> rfl
    | _ => rfl

theorem count_cursor_append (before after : List Event) :
    (cursor (before ++ after)).count = (cursor before).count + (handles after).length := by
  rw [count_cursor, count_cursor, handles_append, List.length_append]

/-- The current instruction, by its place and by its handle. -/
theorem current_rel (es : List Event) :
    Option.Rel (fun id handle ↦ (handles es)[id]? = some handle) (cursor es).current
      (currentHandle? es) := by
  induction es using List.reverseRecOn with
  | nil => exact .none
  | append_singleton es e ih =>
    have hold : Option.Rel (fun id handle ↦ (handles (es ++ [e]))[id]? = some handle)
        (cursor es).current (currentHandle? es) := by
      revert ih
      generalize (cursor es).current = current
      generalize currentHandle? es = currentHandle
      rintro (hget | _)
      · refine .some ?_
        rw [handles_append, List.getElem?_append_left (List.getElem?_eq_some_iff.mp hget).1]
        exact hget
      · exact .none
    rw [cursor_append, currentHandle?, List.foldl_append, ← currentHandle?]
    cases e with
    | instruction handle signature =>
      refine .some ?_
      rw [handles_append_singleton, count_cursor]
      simp [handle?]
    | label l s =>
      cases s with
      | false => exact .none
      | true => exact hold
    | noSuccessor => exact .none
    | line n => exact hold
    | jump l b => exact hold
    | probe p b => exact hold
    | endMethod => exact hold

theorem hasCurrent_append {e : Event} : HasCurrent (es ++ [e]) ↔
    HasCurrent es ∧ ¬ Breaks e ∨ ∃ handle signature, e = .instruction handle signature := by
  constructor
  · rintro ⟨handle, signature, before, after, heq, hafter⟩
    rcases (exists_split_append_singleton (P := fun _ after ↦ ∀ e ∈ after, ¬ Breaks e)).mp
      ⟨before, after, heq, hafter⟩ with ⟨before, after, rfl, h⟩ | ⟨rfl, -⟩
    · rw [List.forall_mem_append, List.forall_mem_singleton] at h
      exact Or.inl ⟨⟨handle, signature, before, after, rfl, h.1⟩, h.2⟩
    · exact Or.inr ⟨handle, signature, rfl⟩
  · rintro (⟨⟨handle, signature, before, after, rfl, h⟩, he⟩ | ⟨handle, signature, rfl⟩)
    · refine ⟨handle, signature, before, after ++ [e], by simp, ?_⟩
      rw [List.forall_mem_append, List.forall_mem_singleton]
      exact ⟨h, he⟩
    · exact ⟨handle, signature, es, [], rfl, by simp⟩

theorem isSome_currentHandle?_iff : (currentHandle? es).isSome ↔ HasCurrent es := by
  induction es using List.reverseRecOn with
  | nil => simp [currentHandle?, HasCurrent]
  | append_singleton es e ih =>
    rw [hasCurrent_append, currentHandle?, List.foldl_append, ← currentHandle?]
    cases e with
    | label l s => cases s <;> simp [follow, ih, Breaks]
    | _ => simp [follow, ih, Breaks]

theorem mem_sites (before : List Event) (e : Event) (after : List Event) :
    (cursor before, e) ∈ sites (before ++ e :: after) :=
  mem_sites_iff.mpr ⟨before, after, rfl, rfl⟩

/-- The jumps, each with the event that declares it. -/
theorem mem_jumps_iff {j : Jump} : j ∈ jumps es ↔ ∃ before after,
    es = before ++ .jump j.target j.branch :: after ∧ (cursor before).current = some j.source := by
  rw [jumps, List.mem_filterMap]
  constructor
  · rintro ⟨⟨c, e⟩, hmem, hj⟩
    obtain ⟨before, after, rfl, rfl⟩ := mem_sites_iff.mp hmem
    cases e with
    | jump target branch =>
      obtain ⟨source, hsource, rfl⟩ := Option.map_eq_some_iff.mp hj
      exact ⟨before, after, rfl, hsource⟩
    | _ => cases hj
  · rintro ⟨before, after, rfl, hsource⟩
    refine ⟨_, mem_sites before (.jump j.target j.branch) after, ?_⟩
    change (cursor before).current.map _ = _
    rw [hsource]
    rfl

theorem source_lt_count {j : Jump} (h : j ∈ jumps es) : j.source < (cursor es).count := by
  obtain ⟨before, after, rfl, hsource⟩ := mem_jumps_iff.mp h
  rw [count_cursor_append]
  exact Nat.lt_of_lt_of_le (current_lt_count hsource) (Nat.le_add_right _ _)

theorem mem_marks_iff {l : Label} {id : NodeId} : (l, id) ∈ marks es ↔ ∃ before successor after,
    es = before ++ .label l successor :: after ∧ (cursor before).count = id := by
  rw [marks, List.mem_filterMap]
  constructor
  · rintro ⟨⟨c, e⟩, hmem, hm⟩
    obtain ⟨before, after, rfl, rfl⟩ := mem_sites_iff.mp hmem
    cases e with
    | label label successor =>
      cases hm
      exact ⟨before, successor, after, rfl, rfl⟩
    | _ => cases hm
  · rintro ⟨before, successor, after, rfl, rfl⟩
    exact ⟨_, mem_sites before (.label l successor) after, rfl⟩

theorem lt_count_of_place? {l : Label} {id : NodeId} (h : place? es l = some id) :
    id < (cursor es).count := by
  obtain ⟨before, after, heq, -⟩ := List.lookup_eq_some_iff.mp h
  have hmem : (l, id) ∈ placed es := by
    rw [← List.mem_reverse, heq]
    exact List.mem_append_right _ List.mem_cons_self
  exact of_decide_eq_true (List.mem_filter.mp hmem).2

/-- A label has a place exactly if it occurs before an instruction. -/
theorem isSome_place?_iff {l : Label} : (place? es l).isSome ↔ Marked es l := by
  have hplace : (place? es l).isSome ↔
      ∃ id, (l, id) ∈ marks es ∧ id < (cursor es).count := by
    rw [place?, List.lookup_isSome_iff]
    simp [placed, Prod.exists]
  rw [hplace]
  simp only [mem_marks_iff]
  constructor
  · rintro ⟨id, ⟨before, successor, after, rfl, rfl⟩, hlt⟩
    rw [count_cursor_append, Nat.lt_add_right_iff_pos, List.length_pos_iff_exists_mem] at hlt
    obtain ⟨handle, hhandle⟩ := hlt
    obtain ⟨signature, hmem⟩ := mem_handles_iff.mp hhandle
    rcases List.mem_cons.mp hmem with heq | hmem
    · cases heq
    · exact ⟨before, successor, after, rfl, handle, signature, hmem⟩
  · rintro ⟨before, successor, after, rfl, handle, signature, hmem⟩
    refine ⟨_, ⟨before, successor, after, rfl, rfl⟩, ?_⟩
    rw [count_cursor_append, Nat.lt_add_right_iff_pos, List.length_pos_iff_exists_mem]
    exact ⟨handle, mem_handles_iff.mpr ⟨signature, List.mem_cons_of_mem _ hmem⟩⟩

end Stream

/-! ## The recording of a stream -/

theorem getElem?_append_singleton_iff {α : Type} [DecidableEq α] {l : List α} {x y : α}
    (h : x ∉ l) {i : Nat} :
    (l ++ [x])[i]? = some y ↔ if x = y then l.length = i else l[i]? = some y := by
  rw [List.getElem?_append]
  split
  next hlt =>
    split
    next heq =>
      subst heq
      have hget : l[i]? ≠ some x := fun hget ↦ h (List.mem_of_getElem? hget)
      simp [hget, Nat.ne_of_gt hlt]
    next => rfl
  next hle =>
    have hnone : l[i]? = none := List.getElem?_eq_none_iff.mpr (Nat.not_lt.mp hle)
    have hi : i - l.length = 0 ↔ l.length = i := by omega
    by_cases hx : x = y
    · simp [List.getElem?_singleton, hi, hx]
    · simp [List.getElem?_singleton, hi, hx, hnone]

namespace Recording

variable {probes : Option (Array Bool)} {es : List Event}

theorem ended_step (r : Recording) (e : Event) :
    (r.step e).ended = true ↔ r.ended = true ∨ e = .endMethod := by
  cases e with
  | jump l b => cases hc : r.current <;> simp [step, hc]
  | probe p b => cases hc : r.current <;> simp [step, hc, withNodes]
  | endMethod => simp [step]
  | _ => simp [step, enter, plant, withNodes]

theorem ended_ofStream : (ofStream probes es).ended = true ↔ .endMethod ∈ es := by
  induction es using List.reverseRecOn with
  | nil => simp [ofStream]
  | append_singleton es e ih =>
    rw [ofStream_append, ended_step, ih, List.mem_append, List.mem_singleton, eq_comm (a := e)]

theorem handles_step (r : Recording) (e : Event) :
    (r.step e).graph.handles.toList = r.graph.handles.toList ++ (Stream.handle? e).toList := by
  cases e with
  | jump l b => cases hc : r.current <;> simp [step, hc, Stream.handle?]
  | probe p b => cases hc : r.current <;> simp [step, hc, withNodes, Stream.handle?]
  | _ => simp [step, enter, plant, withNodes, Stream.handle?]

theorem handles_ofStream (probes : Option (Array Bool)) (es : List Event) :
    (ofStream probes es).graph.handles.toList = Stream.handles es := by
  induction es using List.reverseRecOn with
  | nil => rfl
  | append_singleton es e ih =>
    rw [ofStream_append, handles_step, ih, Stream.handles_append_singleton]

theorem mem_ids_step (r : Recording) (e : Event) {handle : Handle} :
    handle ∈ (r.step e).graph.ids ↔ handle ∈ r.graph.ids ∨ handle ∈ (Stream.handle? e).toList := by
  cases e with
  | jump l b => cases hc : r.current <;> simp [step, hc, Stream.handle?]
  | probe p b => cases hc : r.current <;> simp [step, hc, withNodes, Stream.handle?]
  | instruction h s =>
    change handle ∈ r.graph.ids.insert h _ ↔ _ ∨ handle ∈ [h]
    rw [Std.ExtTreeMap.mem_insert, Std.LawfulEqCmp.compare_eq_iff_eq, List.mem_singleton, or_comm,
      eq_comm]
  | _ => simp [step, Stream.handle?]

theorem mem_ids_ofStream {handle : Handle} :
    handle ∈ (ofStream probes es).graph.ids ↔ handle ∈ Stream.handles es := by
  induction es using List.reverseRecOn with
  | nil => simp [ofStream, Stream.handles]
  | append_singleton es e ih =>
    rw [ofStream_append, mem_ids_step, ih, Stream.handles_append_singleton, List.mem_append]

/-- The ids of a recording are the places of its handles. -/
theorem ids_ofStream (h : Admitted { probes } es) {handle : Handle} {id : NodeId} :
    (ofStream probes es).graph.ids[handle]? = some id ↔
      (Stream.handles es)[id]? = some handle := by
  induction es using List.reverseRecOn generalizing handle id with
  | nil => simp [ofStream, Stream.handles]
  | append_singleton es e ih =>
    obtain ⟨hes, -, hadm⟩ := admitted_append.mp h
    have hold := @ih hes handle id
    rw [ofStream_append, Stream.handles_append_singleton]
    cases e with
    | instruction new signature =>
      have hnew : new ∉ Stream.handles es := fun hmem ↦ hadm.1 (mem_ids_ofStream.mpr hmem)
      have hsize : (ofStream probes es).graph.nodes.size = (Stream.handles es).length := by
        rw [(reads_ofStream probes es).size, Stream.count_cursor]
      change ((ofStream probes es).graph.ids.insert new _)[handle]? = some id ↔
        (Stream.handles es ++ [new])[id]? = some handle
      rw [getElem?_append_singleton_iff hnew, Std.ExtTreeMap.getElem?_insert, hsize, ← hold]
      by_cases heq : new = handle
      · simp [heq]
      · simp [heq]
    | jump l b =>
      cases hc : (ofStream probes es).current <;> simpa [step, hc, Stream.handle?] using hold
    | probe p b =>
      cases hc : (ofStream probes es).current <;>
        simpa [step, hc, withNodes, Stream.handle?] using hold
    | _ => simpa [step, Stream.handle?] using hold

theorem branchObjection?_ofStream (probes : Option (Array Bool)) (es : List Event) (branch : Nat) :
    (ofStream probes es).branchObjection? branch = Stream.branchOffence? es branch := by
  have hhandle (id : NodeId) :
      (ofStream probes es).graph.handle? id = (Stream.handles es)[id]? := by
    rw [FlowGraph.handle?, ← handles_ofStream probes es, Array.getElem?_toList]
  have hrel := Stream.current_rel es
  rw [← (reads_ofStream probes es).current] at hrel
  rw [branchObjection?, Stream.branchOffence?]
  generalize (ofStream probes es).current = current at hrel ⊢
  generalize Stream.currentHandle? es = currentHandle at hrel ⊢
  cases hrel with
  | none => rfl
  | some hget => simp only [hhandle, hget, Option.elim_some]

theorem objection?_ofStream (probes : Option (Array Bool)) (es : List Event) (e : Event) :
    (ofStream probes es).objection? e = Stream.offence? probes es e := by
  have hlive : (ofStream probes es).liveObjection? e = Stream.liveOffence? probes es e := by
    cases e with
    | instruction handle signature =>
      simp only [liveObjection?, Stream.liveOffence?, mem_ids_ofStream]
    | jump target branch => exact branchObjection?_ofStream probes es branch
    | probe probe branch =>
      rw [liveObjection?, Stream.liveOffence?, branchObjection?_ofStream, probes_ofStream]
    | _ => rfl
  simp only [objection?, Stream.offence?, ended_ofStream, hlive]

theorem spacious_ofStream (probes : Option (Array Bool)) (h : es.length + 1 < countBound) :
    (ofStream probes es).Spacious where
  current id hid := by
    have hreads := reads_ofStream probes es
    rw [hreads.size]
    exact Stream.current_lt_count (hreads.current.symm.trans hid)
  total := by
    have hle := branchDemand_ofStream probes es
    rw [branchDemand] at hle
    omega

/-! ## Acceptance -/

/-- The events are taken one after the other, up to the first that is refused. -/
theorem run_forM_accept (probes : Option (Array Bool)) (before : List Event)
    (h : (before ++ es).length < countBound) :
    match (Stream.offencesAfter probes before es).head? with
    | some f => ∃ r, (es.forM accept).run (ofStream probes before) = .error f r
    | none =>
      (es.forM accept).run (ofStream probes before) = .ok () (ofStream probes (before ++ es)) := by
  induction es generalizing before with
  | nil =>
    rw [List.append_nil]
    rfl
  | cons e es ih =>
    have hbind : ((e :: es).forM accept : Update Recording Unit) =
        accept e >>= fun _ ↦ es.forM accept := rfl
    have hnext : (before ++ [e]) ++ es = before ++ e :: es := by simp
    rw [Stream.offencesAfter, hbind, EStateM.run_bind]
    cases hoffence : Stream.offence? probes before e with
    | some f =>
      have hrun := run_accept_of_objection ((objection?_ofStream probes before e).trans hoffence)
      rw [hrun]
      exact ⟨_, rfl⟩
    | none =>
      have hroom : before.length + 1 < countBound := by
        rw [List.length_append, List.length_cons] at h
        omega
      have hrun := (spacious_ofStream probes hroom).run_accept
        ((objection?_ofStream probes before e).trans hoffence)
      rw [hrun, ← ofStream_append]
      have hrest := ih (before ++ [e]) (hnext ▸ h)
      rwa [hnext] at hrest

/-- The jumps are wired one after the other, up to the first whose label has no place. -/
theorem run_forM_wire {places : Std.ExtTreeMap Label NodeId} {js : List Jump} {g : FlowGraph}
    (hsource : ∀ j ∈ js, j.source < g.nodes.size)
    (hplaces : ∀ (l : Label) id, places[l]? = some id → id < g.nodes.size)
    (htotal : branchTotal g.nodes + js.length < countBound) :
    match (js.filterMap (Stream.unresolved? (places[·]?))).head? with
    | some f => ∃ g', (js.forM (wire places)).run g = .error f g'
    | none => ∃ g', (js.forM (wire places)).run g = .ok () g' := by
  -- A wired jump counts one branch, which is one less for the jumps that are left.
  induction js generalizing g with
  | nil => exact ⟨g, rfl⟩
  | cons j js ih =>
    have hbind : ((j :: js).forM (wire places) : Update FlowGraph Unit) =
        wire places j >>= fun _ ↦ js.forM (wire places) := rfl
    rw [hbind, EStateM.run_bind, List.filterMap_cons]
    rw [List.length_cons] at htotal
    cases hplace : places[j.target]? with
    | none =>
      have hrun : (wire places j).run g = .error (.unresolvedLabel j.target) g := by
        rw [wire, hplace]
        rfl
      simp only [Stream.unresolved?, hplace, hrun]
      exact ⟨g, rfl⟩
    | some target =>
      have hroom : Room g.nodes j.source :=
        room_of_total (hsource j List.mem_cons_self) (by omega)
      have hrun : (wire places j).run g = .ok () { g with
          nodes := connect g.nodes ⟨⟨j.source, j.branch⟩, target⟩ } :=
        wire_eq_ok_iff.mpr ⟨_, by rw [resolve, hplace]; rfl, hroom, hplaces _ _ hplace, rfl⟩
      have hle := branchTotal_connect g.nodes ⟨⟨j.source, j.branch⟩, target⟩
      simp only [Stream.unresolved?, hplace, hrun, Option.isSome_some, if_true]
      apply ih
      · intro j' hj'
        rw [size_connect]
        exact hsource j' (List.mem_cons_of_mem j hj')
      · intro l id hl
        rw [size_connect]
        exact hplaces l id hl
      · change branchTotal (connect _ _) + js.length < countBound
        omega

theorem finish_ofStream (h : es.length < countBound) :
    match ((Stream.jumps es).filterMap (Stream.unresolved? (Stream.place? es))).head? with
    | some f => (ofStream probes es).finish = .error f
    | none => ∃ g, (ofStream probes es).finish = .ok g := by
  have hreads := reads_ofStream probes es
  have hplace : (fun l ↦ (ofStream probes es).places[l]?) = Stream.place? es :=
    funext fun l ↦ (hreads.place?_eq l).symm
  have hsource : ∀ j ∈ (ofStream probes es).jumps.toList,
      j.source < (ofStream probes es).graph.nodes.size := fun j hj ↦ by
    rw [hreads.size]
    exact Stream.source_lt_count (hreads.jumps ▸ hj)
  have hplaces : ∀ (l : Label) id, (ofStream probes es).places[l]? = some id →
      id < (ofStream probes es).graph.nodes.size := fun l id hl ↦ by
    rw [hreads.size]
    exact Stream.lt_count_of_place? ((hreads.place?_eq l).trans hl)
  have hwired := run_forM_wire hsource hplaces
    (Nat.lt_of_le_of_lt (branchDemand_ofStream probes es) h)
  rw [hplace] at hwired
  rw [← hreads.jumps, finish]
  cases hfirst : ((ofStream probes es).jumps.toList.filterMap
      (Stream.unresolved? (Stream.place? es))).head? with
  | some f =>
    rw [hfirst] at hwired
    obtain ⟨g, hg⟩ := hwired
    rw [hg]
  | none =>
    rw [hfirst] at hwired
    obtain ⟨g, hg⟩ := hwired
    rw [hg]
    exact ⟨_, rfl⟩

end Recording

namespace FlowGraph

variable {probes : Option (Array Bool)} {es : List Event} {g : FlowGraph}

theorem handles_ofEvents (h : FlowGraph.ofEvents probes es = .ok g) :
    g.handles.toList = Stream.handles es := by
  obtain ⟨-, -, _, -, -, rfl⟩ := FlowGraph.ofEvents_eq_ok_iff.mp h
  exact Recording.handles_ofStream probes es

/-- An instruction is found under its handle, at the place where it stands. -/
theorem id?_ofEvents (h : FlowGraph.ofEvents probes es = .ok g) {handle : Handle} {id : NodeId} :
    g.id? handle = some id ↔ (Stream.handles es)[id]? = some handle := by
  obtain ⟨hadm, -, _, -, -, rfl⟩ := FlowGraph.ofEvents_eq_ok_iff.mp h
  exact Recording.ids_ofStream hadm

end FlowGraph

open Recording in
/-- A stream of fewer events than a count can hold has a graph, unless something is wrong with it;
then it is refused for the first such thing. -/
theorem FlowGraph.ofEvents_offences (probes : Option (Array Bool)) {es : List Event}
    (h : es.length < countBound) :
    match (Stream.offences probes es).head? with
    | some f => FlowGraph.ofEvents probes es = .error f
    | none => ∃ g, FlowGraph.ofEvents probes es = .ok g := by
  have hevents := run_forM_accept probes [] h
  change match (Stream.offencesAfter probes [] es).head? with
    | some f => ∃ r, (es.forM accept).run { probes } = .error f r
    | none => (es.forM accept).run { probes } = .ok () (ofStream probes es) at hevents
  rw [FlowGraph.ofEvents, consume, EStateM.run_bind, Stream.offences, List.head?_append]
  cases hoffence : (Stream.offencesAfter probes [] es).head? with
  | some f =>
    rw [hoffence] at hevents
    obtain ⟨r, hr⟩ := hevents
    rw [hr]
    rfl
  | none =>
    rw [hoffence] at hevents
    rw [hevents, Option.none_or]
    simp only [EStateM.run_bind, EStateM.run_get, ended_ofStream]
    by_cases hend : .endMethod ∈ es
    · simp only [hend, if_true, List.nil_append]
      exact finish_ofStream h
    · simp only [hend, if_false]
      rfl

/-! ## Nothing is wrong with well-formed streams -/

namespace Stream

variable {probes : Option (Array Bool)} {before es : List Event}

theorem branchOffence?_eq_none_iff {branch : Nat} :
    branchOffence? before branch = none ↔ HasCurrent before ∧ branch ≤ maxBranch := by
  rw [branchOffence?, ← isSome_currentHandle?_iff]
  cases currentHandle? before with
  | none => simp
  | some handle => simp

theorem liveOffence?_eq_none_iff {e : Event} : liveOffence? probes before e = none ↔
    (∀ handle, handle? e = some handle → handle ∉ handles before) ∧
      (∀ branch, branch? e = some branch → HasCurrent before ∧ branch ≤ maxBranch) ∧
      ∀ probe branch, e = .probe probe branch → Readable probes probe := by
  cases e with
  | instruction handle signature => simp [liveOffence?, handle?, branch?]
  | jump target branch => simp [liveOffence?, handle?, branch?, branchOffence?_eq_none_iff]
  | probe probe branch =>
    simp [liveOffence?, handle?, branch?, branchOffence?_eq_none_iff, unreadable?_eq_none_iff]
  | _ => simp [liveOffence?, handle?, branch?]

theorem offence?_eq_none_iff {e : Event} : offence? probes before e = none ↔
    .endMethod ∉ before ∧ liveOffence? probes before e = none := by
  rw [offence?]
  split
  next h => simp [h]
  next h => simp [h]

theorem offencesAfter_eq_nil_iff (before : List Event) : offencesAfter probes before es = [] ↔
    ∀ pre e post, es = pre ++ e :: post → offence? probes (before ++ pre) e = none := by
  induction es generalizing before with
  | nil => simp [offencesAfter]
  | cons e es ih =>
    rw [offencesAfter, List.append_eq_nil_iff, ih, Option.toList_eq_nil_iff]
    constructor
    · rintro ⟨he, hes⟩ pre e' post heq
      cases pre with
      | nil =>
        obtain ⟨rfl, -⟩ := List.cons.inj heq
        rwa [List.append_nil]
      | cons f pre =>
        obtain ⟨rfl, hrest⟩ := List.cons.inj heq
        simpa using hes pre e' post hrest
    · intro h
      refine ⟨by simpa using h [] e es rfl, fun pre e' post heq ↦ ?_⟩
      have hnext := h (e :: pre) e' post (congrArg (e :: ·) heq)
      simpa using hnext

/-- The method ends with the stream and not before. -/
theorem ends_iff : (∃ body, es = body ++ [.endMethod] ∧ .endMethod ∉ body) ↔
    .endMethod ∈ es ∧ ∀ pre e post, es = pre ++ e :: post → Event.endMethod ∉ pre := by
  constructor
  · rintro ⟨body, rfl, hbody⟩
    refine ⟨List.mem_append_right _ List.mem_cons_self, fun pre e post heq hmem ↦ hbody ?_⟩
    rcases (exists_split_append_singleton (P := fun pre _ ↦ Event.endMethod ∈ pre)).mp
      ⟨pre, post, heq, hmem⟩ with ⟨pre, post, rfl, h⟩ | ⟨-, h⟩
    · exact List.mem_append_left _ h
    · exact h
  · rintro ⟨hmem, h⟩
    obtain ⟨body, rest, rfl⟩ := List.append_of_mem hmem
    cases rest with
    | nil => exact ⟨body, rfl, h body _ [] rfl⟩
    | cons e post =>
      have hnot := h (body ++ [.endMethod]) e post (by simp)
      exact absurd (List.mem_append_right _ List.mem_cons_self) hnot

/-- The handles differ if each is new where it occurs. -/
theorem nodup_handles_iff : (handles es).Nodup ↔ ∀ pre e post, es = pre ++ e :: post →
    ∀ handle, handle? e = some handle → handle ∉ handles pre := by
  constructor
  · rintro h pre e post rfl handle hhandle hmem
    rw [handles_append, List.nodup_append] at h
    refine h.2.2 handle hmem handle ?_ rfl
    rw [handles, List.filterMap_cons_some hhandle]
    exact List.mem_cons_self
  · intro h
    induction es using List.reverseRecOn with
    | nil => exact List.nodup_nil
    | append_singleton es e ih =>
      have hes := ih fun pre e' post heq ↦ h pre e' (post ++ [e]) (by simp [heq])
      rw [handles_append_singleton]
      cases hhandle : handle? e with
      | none => simpa using hes
      | some handle =>
        rw [Option.toList_some, List.nodup_append]
        refine ⟨hes, by simp, fun a ha b hb hab ↦ ?_⟩
        rw [hab, List.mem_singleton.mp hb] at ha
        exact h es e [] rfl handle hhandle ha

theorem offences_eq_nil_iff : offences probes es = [] ↔
    (∀ pre e post, es = pre ++ e :: post → offence? probes pre e = none) ∧ .endMethod ∈ es ∧
      ∀ j ∈ jumps es, Marked es j.target := by
  have hend : (if Event.endMethod ∈ es then [] else [Fault.unterminated es.length]) = [] ↔
      .endMethod ∈ es := by
    split
    next h => simp [h]
    next h => simp [h]
  have hjumps : (jumps es).filterMap (unresolved? (place? es)) = [] ↔
      ∀ j ∈ jumps es, Marked es j.target := by
    rw [List.filterMap_eq_nil_iff]
    refine forall₂_congr fun j _ ↦ ?_
    rw [← isSome_place?_iff, unresolved?]
    split
    next h => simp [h]
    next h => simp [h]
  rw [offences, List.append_eq_nil_iff, List.append_eq_nil_iff, offencesAfter_eq_nil_iff, hend,
    hjumps]
  rfl

/-- A jump that follows an instruction is recorded. -/
theorem exists_jump_of_hasCurrent (h : HasCurrent before) (target : Label) (branch : Nat)
    (after : List Event) :
    ∃ j ∈ jumps (before ++ .jump target branch :: after), j.target = target := by
  have hrel := current_rel before
  obtain ⟨handle, hhandle⟩ := Option.isSome_iff_exists.mp (isSome_currentHandle?_iff.mpr h)
  rw [hhandle] at hrel
  cases hsource : (cursor before).current with
  | none =>
    rw [hsource] at hrel
    cases hrel
  | some source =>
    exact ⟨⟨source, target, branch⟩, mem_jumps_iff.mpr ⟨before, after, rfl, hsource⟩, rfl⟩

theorem wellFormed_iff : WellFormed probes es ↔ offences probes es = [] := by
  rw [offences_eq_nil_iff]
  simp only [offence?_eq_none_iff, liveOffence?_eq_none_iff]
  constructor
  · intro h
    obtain ⟨hend, hbefore⟩ := ends_iff.mp h.ends
    refine ⟨fun pre e post heq ↦ ⟨hbefore pre e post heq, ?_, fun branch hbranch ↦ ?_, ?_⟩, hend,
      fun j hj ↦ ?_⟩
    · exact nodup_handles_iff.mp h.distinct pre e post heq
    · have he : e ∈ es := heq ▸ List.mem_append_right _ List.mem_cons_self
      exact ⟨h.current pre e post heq (hbranch ▸ rfl), h.branches e he branch hbranch⟩
    · rintro probe branch rfl
      exact h.readable probe ⟨branch, heq ▸ List.mem_append_right _ List.mem_cons_self⟩
    · obtain ⟨pre, post, heq, -⟩ := mem_jumps_iff.mp hj
      exact h.marked j.target j.branch (heq ▸ List.mem_append_right _ List.mem_cons_self)
  · rintro ⟨hevents, hend, hjumps⟩
    refine ⟨ends_iff.mpr ⟨hend, fun pre e post heq ↦ (hevents pre e post heq).1⟩,
      nodup_handles_iff.mpr fun pre e post heq ↦ (hevents pre e post heq).2.1,
      fun pre e post heq hbranch ↦ ?_, fun e he branch hbranch ↦ ?_, fun i hi ↦ ?_,
      fun target branch hjump ↦ ?_⟩
    · obtain ⟨branch, hbranch⟩ := Option.isSome_iff_exists.mp hbranch
      exact ((hevents pre e post heq).2.2.1 branch hbranch).1
    · obtain ⟨pre, post, heq⟩ := List.append_of_mem he
      exact ((hevents pre e post heq).2.2.1 branch hbranch).2
    · obtain ⟨branch, he⟩ := hi
      obtain ⟨pre, post, heq⟩ := List.append_of_mem he
      exact (hevents pre _ post heq).2.2.2 i branch rfl
    · obtain ⟨pre, post, heq⟩ := List.append_of_mem hjump
      have hcurrent := ((hevents pre _ post heq).2.2.1 branch rfl).1
      obtain ⟨j, hj, rfl⟩ := exists_jump_of_hasCurrent hcurrent target branch post
      exact hjumps j (heq ▸ hj)

end Stream

/-- A stream of fewer events than a count can hold has a graph exactly if it is well-formed, and a
fault is what it is refused with exactly if it is the first thing that is wrong. -/
theorem FlowGraph.ofEvents_accepts (probes : Option (Array Bool)) {es : List Event}
    (h : es.length < countBound) :
    ((∃ g, FlowGraph.ofEvents probes es = .ok g) ↔ Stream.WellFormed probes es) ∧
      ∀ f, FlowGraph.ofEvents probes es = .error f ↔
        (Stream.offences probes es).head? = some f := by
  have hspec := FlowGraph.ofEvents_offences probes h
  rw [Stream.wellFormed_iff, ← List.head?_eq_none_iff]
  cases hfirst : (Stream.offences probes es).head? with
  | some f =>
    rw [hfirst] at hspec
    rw [hspec]
    simp
  | none =>
    rw [hfirst] at hspec
    obtain ⟨g, hg⟩ := hspec
    rw [hg]
    simp

namespace Stream

/-- A jump back to a label that is bound twice. -/
def backward : List Event :=
  [.label ⟨1⟩ true, .instruction ⟨0⟩ none, .label ⟨1⟩ true, .instruction ⟨1⟩ none,
    .jump ⟨1⟩ 1, .probe 0 0, .endMethod]

/-- A duplicate and a probe without an entry, in a stream that does not end. -/
def faulty : List Event :=
  [.instruction ⟨0⟩ none, .jump ⟨1⟩ 1, .instruction ⟨0⟩ none, .probe 5 0]

end Stream

theorem FlowGraph.ofEvents_accepts_backward :
    Stream.backward.length < countBound ∧ Stream.WellFormed (some #[true]) Stream.backward ∧
      FlowGraph.ofEvents (some #[true]) Stream.faulty =
        .error (.duplicateInstruction ⟨0⟩) := by
  have hshort : Stream.backward.length < countBound := by decide
  have hfaulty : Stream.faulty.length < countBound := by decide
  have haccepts := FlowGraph.ofEvents_accepts (some #[true]) hshort
  have hrefuses := FlowGraph.ofEvents_accepts (some #[true]) hfaulty
  refine ⟨hshort, haccepts.1.mp (exists_eq_ok (by decide +kernel)), ?_⟩
  exact (hrefuses.2 _).mpr (by decide +kernel)

end ProbeCoverage
