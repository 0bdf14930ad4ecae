import Mathlib.Data.List.Induction
import ProbeCoverage.FlowGraph.Recording
import ProbeCoverage.Proofs.Registration

/-!
# Recordings without the monad

Whether a recording takes an event, and what it is afterwards. A complete stream is recorded
exactly if every event is taken, the last one ends the method and every jump finds its target.
-/

namespace ProbeCoverage

/-- What a probe says; a missing entry says no. -/
def fires (probes : Option (Array Bool)) (probe : Nat) : Bool := probes.any (·.getD probe false)

/-- The array, if there is one, has an entry for the probe. -/
def Readable (probes : Option (Array Bool)) (probe : Nat) : Prop :=
  ∀ a, probes = some a → probe < a.size

theorem readable_some {a : Array Bool} {i : Nat} : Readable (some a) i ↔ i < a.size := by
  simp [Readable]

def stamp (nodes : Array Node) (id : NodeId) (probe : Nat) : Array Node :=
  nodes.modify id ({ · with probe := some probe })

namespace Recording

def fresh (r : Recording) (signature : Option String) : Array Node :=
  r.graph.nodes.push { line := r.line, signature }

/-- The recording with a new instruction, not reached from any other yet. -/
def plant (r : Recording) (handle : Handle) (signature : Option String) : Recording :=
  { r with
    pending := []
    places := r.pending.foldl (·.insert · r.graph.nodes.size) r.places
    graph := { r.graph with
      nodes := r.fresh signature
      handles := r.graph.handles.push handle
      ids := r.graph.ids.insert handle r.graph.nodes.size } }

/-- The nodes after an instruction, which control may reach from the one before. -/
def entered (r : Recording) (signature : Option String) : Array Node :=
  match r.current with
  | some previous => connect (r.fresh signature) ⟨⟨previous, 0⟩, r.graph.nodes.size⟩
  | none => r.fresh signature

def withNodes (r : Recording) (nodes : Array Node) : Recording :=
  { r with graph := { r.graph with nodes } }

def enter (r : Recording) (handle : Handle) (signature : Option String) : Recording :=
  { (r.plant handle signature).withNodes (r.entered signature) with
    current := some r.graph.nodes.size }

/-- The recording after an event that it takes. -/
def step (r : Recording) : Event → Recording
  | .line number => { r with line := some number }
  | .label label successor =>
    { r with
      pending := label :: r.pending
      current := if successor then r.current else none }
  | .instruction handle signature => r.enter handle signature
  | .jump target branch =>
    match r.current with
    | some source => { r with jumps := r.jumps.push { source, target, branch } }
    | none => r
  | .probe probe branch =>
    match r.current with
    | some id =>
      r.withNodes (direct (stamp r.graph.nodes id probe) ⟨id, branch⟩ (fires r.probes probe))
    | none => r
  | .noSuccessor => { r with current := none }
  | .endMethod => { r with ended := true }

/-- What an event asks of a recording that has not ended. -/
def Admits (r : Recording) : Event → Prop
  | .instruction handle signature =>
    ¬ handle ∈ r.graph.ids ∧
      ∀ previous, r.current = some previous → Room (r.fresh signature) previous
  | .jump _ branch => ∃ id, r.current = some id ∧ branch ≤ maxBranch
  | .probe probe branch =>
    ∃ id, r.current = some id ∧ branch ≤ maxBranch ∧ Readable r.probes probe ∧
      Room r.graph.nodes id
  | .line _ | .label _ _ | .noSuccessor | .endMethod => True

theorem run_onGraph {α : Type} (op : Update FlowGraph α) (r : Recording) :
    (onGraph op).run r = match op.run r.graph with
      | .ok a g => .ok a { r with graph := g }
      | .error e g => .error e { r with graph := g } := rfl

theorem onGraph_eq_ok_iff {α : Type} {op : Update FlowGraph α} {r r' : Recording} {a : α} :
    (onGraph op).run r = .ok a r' ↔
      ∃ g, op.run r.graph = .ok a g ∧ r' = { r with graph := g } := by
  rw [run_onGraph]
  cases op.run r.graph with
  | ok b g => simp [eq_comm, and_comm]
  | error e g => simp

theorem onGraph_eq_error_iff {α : Type} {op : Update FlowGraph α} {r r' : Recording} {e : Fault} :
    (onGraph op).run r = .error e r' ↔
      ∃ g, op.run r.graph = .error e g ∧ r' = { r with graph := g } := by
  rw [run_onGraph]
  cases op.run r.graph with
  | ok a g => simp
  | error f g => simp [eq_comm, and_assoc]

theorem requireBranch_eq_ok_iff {r r' : Recording} {id : NodeId} {branch : Nat} :
    (requireBranch id branch).run r = .ok () r' ↔ branch ≤ maxBranch ∧ r' = r := by
  unfold requireBranch
  by_cases h : maxBranch < branch
  · have hle : ¬ branch ≤ maxBranch := Nat.not_le.mpr h
    simp only [h, if_true, EStateM.run_bind, EStateM.run_get, hle, false_and, iff_false]
    cases r.graph.handle? id <;> simp
  · simp [h, Nat.not_lt.mp h, eq_comm]

theorem currentId_eq_ok_iff {r r' : Recording} {id : NodeId} :
    currentId.run r = .ok id r' ↔ r.current = some id ∧ r' = r := by
  unfold currentId
  rw [EStateM.run_bind, EStateM.run_get]
  cases h : r.current with
  | none => simp [h]
  | some i => simp [h, eq_comm]

theorem readProbe_eq_ok_iff {r r' : Recording} {probe : Nat} {fired : Bool} :
    (readProbe probe).run r = .ok fired r' ↔
      Readable r.probes probe ∧ fired = fires r.probes probe ∧ r' = r := by
  unfold readProbe
  rw [EStateM.run_bind, EStateM.run_get]
  cases h : r.probes with
  | none => simp [h, Readable, fires, eq_comm]
  | some a =>
    cases hp : a[probe]? with
    | none =>
      have hge : ¬ probe < a.size := Nat.not_lt.mpr (Array.getElem?_eq_none_iff.mp hp)
      simp [h, hge, Readable]
    | some b =>
      have hlt : probe < a.size := (Array.getElem?_eq_some_iff.mp hp).1
      simp [h, hlt, Readable, fires, Array.getD_eq_getD_getElem?, eq_comm]

theorem addJump_eq_ok_iff {r r' : Recording} {target : Label} {branch : Nat} :
    (addJump target branch).run r = .ok () r' ↔
      Admits r (.jump target branch) ∧ r' = r.step (.jump target branch) := by
  unfold addJump
  rw [EStateM.run_bind]
  cases hcur : r.current with
  | none =>
    have hrun : currentId.run r = .error .noCurrentInstruction r := by
      simp [currentId, hcur]
    simp [hrun, Admits, hcur]
  | some id =>
    have hrun : currentId.run r = .ok id r := currentId_eq_ok_iff.mpr ⟨hcur, rfl⟩
    simp only [hrun, Admits, step, hcur, Option.some.injEq, exists_eq_left', EStateM.run_bind]
    by_cases hb : branch ≤ maxBranch
    · have hreq : (requireBranch id branch).run r = .ok () r :=
        requireBranch_eq_ok_iff.mpr ⟨hb, rfl⟩
      simp [hreq, hb, hcur, eq_comm]
    · cases hreq : (requireBranch id branch).run r with
      | ok u r₁ => exact absurd (requireBranch_eq_ok_iff.mp hreq).1 hb
      | error e r₁ => simp [hb]

theorem addProbe_eq_ok_iff {r r' : Recording} {probe branch : Nat} :
    (addProbe probe branch).run r = .ok () r' ↔
      Admits r (.probe probe branch) ∧ r' = r.step (.probe probe branch) := by
  unfold addProbe
  rw [EStateM.run_bind]
  cases hcur : r.current with
  | none =>
    have hrun : currentId.run r = .error .noCurrentInstruction r := by
      simp [currentId, hcur]
    simp [hrun, Admits, hcur]
  | some id =>
    have hrun : currentId.run r = .ok id r := currentId_eq_ok_iff.mpr ⟨hcur, rfl⟩
    simp only [hrun, Admits, step, hcur, Option.some.injEq, exists_eq_left', EStateM.run_bind]
    by_cases hb : branch ≤ maxBranch
    · have hreq : (requireBranch id branch).run r = .ok () r :=
        requireBranch_eq_ok_iff.mpr ⟨hb, rfl⟩
      simp only [hreq, hb, true_and]
      by_cases hread : Readable r.probes probe
      · have hfired : (readProbe probe).run r = .ok (fires r.probes probe) r :=
          readProbe_eq_ok_iff.mpr ⟨hread, rfl, rfl⟩
        have hroom : Room (stamp r.graph.nodes id probe) id ↔ Room r.graph.nodes id := by
          simp [Room, stamp, Array.getElem?_modify]
        simp only [hfired, hread, true_and, EStateM.run_modify, onGraph_eq_ok_iff,
          FlowGraph.register_eq_ok_iff]
        change (∃ g, (Room (stamp r.graph.nodes id probe) id ∧ _) ∧ _) ↔ _
        rw [hroom]
        constructor
        · rintro ⟨g, ⟨hr, rfl⟩, rfl⟩
          exact ⟨hr, rfl⟩
        · rintro ⟨hr, rfl⟩
          exact ⟨_, ⟨hr, rfl⟩, rfl⟩
      · cases hfired : (readProbe probe).run r with
        | ok f r₁ => exact absurd (readProbe_eq_ok_iff.mp hfired).1 hread
        | error e r₁ => simp [hread]
    · cases hreq : (requireBranch id branch).run r with
      | ok u r₁ => exact absurd (requireBranch_eq_ok_iff.mp hreq).1 hb
      | error e r₁ => simp [hb]

theorem addInstruction_eq_ok_iff {r r' : Recording} {handle : Handle} {signature : Option String}
    {id : NodeId} : (addInstruction handle signature).run r = .ok id r' ↔
      Admits r (.instruction handle signature) ∧ id = r.graph.nodes.size ∧
        r' = r.step (.instruction handle signature) := by
  unfold addInstruction placeLabels
  simp only [EStateM.run_bind, EStateM.run_get, EStateM.run_modify]
  by_cases hnew : handle ∈ r.graph.ids
  · cases hadd : (onGraph (FlowGraph.add handle { line := r.line, signature })).run r with
    | error e r₁ => simp [Admits, hnew]
    | ok i r₁ =>
      obtain ⟨g, hg, -⟩ := onGraph_eq_ok_iff.mp hadd
      exact absurd hnew (FlowGraph.add_eq_ok_iff.mp hg).1
  · have hadd : (onGraph (FlowGraph.add handle { line := r.line, signature })).run r =
        .ok r.graph.nodes.size { r with graph := (r.plant handle signature).graph } :=
      onGraph_eq_ok_iff.mpr ⟨_, FlowGraph.add_eq_ok_iff.mpr ⟨hnew, rfl, rfl⟩, rfl⟩
    simp only [hadd, Admits, hnew, not_false_eq_true, true_and]
    cases hcur : r.current with
    | none =>
      simp [step, enter, entered, withNodes, plant, hcur, eq_comm, -bind_pure_comp]
    | some previous =>
      have hedge := @FlowGraph.registerEdge_eq_ok_iff previous r.graph.nodes.size 0
        (r.plant handle signature).graph
      have hlt : r.graph.nodes.size < (r.fresh signature).size := by simp [fresh]
      simp only [Option.some.injEq, forall_eq', EStateM.run_bind, run_onGraph]
      cases hrun : (FlowGraph.registerEdge previous r.graph.nodes.size 0).run
          (r.plant handle signature).graph with
      | ok u g =>
        obtain ⟨hroom, -, rfl⟩ := hedge.mp hrun
        replace hroom : Room (r.fresh signature) previous := hroom
        simp [step, enter, entered, withNodes, plant, hcur, hroom, eq_comm]
      | error e g =>
        have hroom : ¬ Room (r.fresh signature) previous := fun hr ↦ by
          have hok := hedge.mpr ⟨hr, hlt, rfl⟩
          rw [hrun] at hok
          cases hok
        simp [hroom]

theorem accept_eq_ok_iff {e : Event} {r r' : Recording} :
    (accept e).run r = .ok () r' ↔ r.ended = false ∧ Admits r e ∧ r' = r.step e := by
  unfold accept
  rw [EStateM.run_bind, EStateM.run_get]
  cases hend : r.ended with
  | true => simp [hend]
  | false =>
    simp only [hend, Bool.false_eq_true, if_false, true_and]
    cases e with
    | line n => simp [setLine, Admits, step, eq_comm]
    | label l s => cases s <;> simp [addLabel, breakFlow, Admits, step, eq_comm]
    | instruction h s =>
      rw [Update.discard_eq_ok_iff]
      simp [addInstruction_eq_ok_iff]
    | jump l b => simpa using addJump_eq_ok_iff
    | probe p b => simpa using addProbe_eq_ok_iff
    | noSuccessor => simp [breakFlow, Admits, step, eq_comm]
    | endMethod => simp [Admits, step, eq_comm]

theorem probes_step (r : Recording) (e : Event) : (r.step e).probes = r.probes := by
  cases e with
  | jump l b => cases hc : r.current <;> simp [step, hc]
  | probe p b => cases hc : r.current <;> simp [step, hc, withNodes]
  | _ => rfl

/-! ## Streams -/

/-- Every event is taken by what the events before it have left. -/
def Admitted : Recording → List Event → Prop
  | _, [] => True
  | r, e :: es => r.ended = false ∧ Admits r e ∧ Admitted (r.step e) es

theorem forM_accept_eq_ok_iff {es : List Event} {r r' : Recording} :
    (es.forM accept).run r = .ok () r' ↔ Admitted r es ∧ r' = es.foldl step r := by
  induction es generalizing r with
  | nil => simp [Admitted, eq_comm]
  | cons e es ih =>
    change (accept e >>= fun _ ↦ es.forM accept).run r = _ ↔ _
    rw [EStateM.run_bind]
    cases hrun : (accept e).run r with
    | ok u r₁ =>
      obtain ⟨hend, hadm, rfl⟩ := accept_eq_ok_iff.mp hrun
      simpa only [Admitted, hend, hadm, true_and, List.foldl_cons] using ih
    | error f r₁ =>
      have hnot : ¬ (r.ended = false ∧ Admits r e) := fun h ↦ by
        have hok := accept_eq_ok_iff.mpr ⟨h.1, h.2, rfl⟩
        rw [hrun] at hok
        cases hok
      simp only [Admitted, List.foldl_cons]
      constructor
      · intro h
        cases h
      · rintro ⟨⟨hend, hadm, -⟩, -⟩
        exact absurd ⟨hend, hadm⟩ hnot

theorem admitted_append {r : Recording} {es : List Event} {e : Event} :
    Admitted r (es ++ [e]) ↔
      Admitted r es ∧ (es.foldl step r).ended = false ∧ Admits (es.foldl step r) e := by
  induction es generalizing r with
  | nil => simp [Admitted]
  | cons f es ih => simp [Admitted, ih, and_assoc]

theorem consume_eq_ok_iff {es : List Event} {r r' : Recording} :
    (consume es).run r = .ok () r' ↔
      Admitted r es ∧ r'.ended = true ∧ r' = es.foldl step r := by
  unfold consume
  rw [EStateM.run_bind]
  cases hrun : (es.forM accept).run r with
  | ok u r₁ =>
    obtain ⟨hadm, rfl⟩ := forM_accept_eq_ok_iff.mp hrun
    cases hend : (es.foldl step r).ended with
    | true =>
      simp only [hend, hadm, EStateM.run_bind, EStateM.run_get, if_true, EStateM.run_pure, true_and]
      constructor
      · intro h
        cases h
        exact ⟨hend, rfl⟩
      · rintro ⟨-, rfl⟩
        rfl
    | false =>
      simp only [hend, hadm, EStateM.run_bind, EStateM.run_get, Bool.false_eq_true, if_false]
      constructor
      · intro h
        simp at h
      · rintro ⟨-, h, rfl⟩
        rw [hend] at h
        cases h
  | error e r₁ =>
    have hnot : ¬ Admitted r es := fun h ↦ by
      have hok := forM_accept_eq_ok_iff.mpr ⟨h, rfl⟩
      rw [hrun] at hok
      cases hok
    simp [hnot]

def resolve (places : Std.ExtTreeMap Label NodeId) (j : Jump) : Option Edge :=
  places[j.target]?.map fun target ↦ ⟨⟨j.source, j.branch⟩, target⟩

/-- Each edge can be registered after those before it. -/
def Connectable : Array Node → List Edge → Prop
  | _, [] => True
  | nodes, e :: es =>
    Room nodes e.via.node ∧ e.target < nodes.size ∧ Connectable (connect nodes e) es

theorem wire_eq_ok_iff {places : Std.ExtTreeMap Label NodeId} {j : Jump} {g g' : FlowGraph} :
    (wire places j).run g = .ok () g' ↔
      ∃ e, resolve places j = some e ∧ Room g.nodes e.via.node ∧ e.target < g.nodes.size ∧
        g' = { g with nodes := connect g.nodes e } := by
  unfold wire resolve
  cases places[j.target]? with
  | none => simp
  | some target => simp [FlowGraph.registerEdge_eq_ok_iff]

theorem forM_wire_eq_ok_iff {places : Std.ExtTreeMap Label NodeId} {js : List Jump}
    {g g' : FlowGraph} : (js.forM (wire places)).run g = .ok () g' ↔
      ∃ es, js.mapM (resolve places) = some es ∧ Connectable g.nodes es ∧
        g' = { g with nodes := es.foldl connect g.nodes } := by
  induction js generalizing g with
  | nil => simp [Connectable, eq_comm]
  | cons j js ih =>
    change (wire places j >>= fun _ ↦ js.forM (wire places)).run g = _ ↔ _
    rw [EStateM.run_bind]
    simp only [List.mapM_cons, Option.bind_eq_bind, Option.bind_eq_some_iff, Option.pure_def,
      Option.some.injEq]
    cases hrun : (wire places j).run g with
    | ok u g₁ =>
      obtain ⟨e, he, hroom, hlt, rfl⟩ := wire_eq_ok_iff.mp hrun
      simp only [ih]
      constructor
      · rintro ⟨es, hes, hcon, rfl⟩
        exact ⟨e :: es, ⟨e, he, es, hes, rfl⟩, ⟨hroom, hlt, hcon⟩, rfl⟩
      · rintro ⟨_, ⟨e', he', es, hes, rfl⟩, ⟨-, -, hcon⟩, rfl⟩
        obtain rfl : e = e' := Option.some.inj (he.symm.trans he')
        exact ⟨es, hes, hcon, rfl⟩
    | error f g₁ =>
      constructor
      · intro h
        cases h
      · rintro ⟨_, ⟨e, he, es, hes, rfl⟩, ⟨hroom, hlt, -⟩, rfl⟩
        have hok := wire_eq_ok_iff.mpr ⟨e, he, hroom, hlt, rfl⟩
        rw [hrun] at hok
        cases hok

def ofStream (probes : Option (Array Bool)) (events : List Event) : Recording :=
  events.foldl step { probes }

theorem ofStream_append (probes : Option (Array Bool)) (es : List Event) (e : Event) :
    ofStream probes (es ++ [e]) = (ofStream probes es).step e :=
  List.foldl_append

theorem probes_ofStream (probes : Option (Array Bool)) (es : List Event) :
    (ofStream probes es).probes = probes := by
  induction es using List.reverseRecOn with
  | nil => rfl
  | append_singleton es e ih => rw [ofStream_append, probes_step, ih]

end Recording

open Recording in
/-- A stream has a graph exactly if every event is taken, the last one ends the method and every
jump can be wired. -/
theorem FlowGraph.ofEvents_eq_ok_iff {probes : Option (Array Bool)} {events : List Event}
    {g : FlowGraph} : FlowGraph.ofEvents probes events = .ok g ↔
      Admitted { probes } events ∧ (ofStream probes events).ended = true ∧
        ∃ es, (ofStream probes events).jumps.toList.mapM
            (resolve (ofStream probes events).places) = some es ∧
          Connectable (ofStream probes events).graph.nodes es ∧
          g = { (ofStream probes events).graph with
            nodes := es.foldl connect (ofStream probes events).graph.nodes
            jumps := (ofStream probes events).jumps } := by
  unfold FlowGraph.ofEvents
  cases hrun : (consume events).run { probes } with
  | ok u r =>
    obtain ⟨hadm, hend, rfl⟩ := consume_eq_ok_iff.mp hrun
    change finish (ofStream probes events) = _ ↔ _
    replace hend : (ofStream probes events).ended = true := hend
    simp only [hadm, hend, true_and]
    unfold finish
    cases hwire : ((ofStream probes events).jumps.toList.forM
        (wire (ofStream probes events).places)).run (ofStream probes events).graph with
    | ok u g₁ =>
      obtain ⟨es, hes, hcon, rfl⟩ := forM_wire_eq_ok_iff.mp hwire
      simp [hes, hcon, eq_comm]
    | error e g₁ =>
      constructor
      · intro h
        cases h
      · rintro ⟨es, hes, hcon, -⟩
        have hok := forM_wire_eq_ok_iff.mpr ⟨es, hes, hcon, rfl⟩
        rw [hwire] at hok
        cases hok
  | error e r =>
    constructor
    · intro h
      cases h
    · rintro ⟨hadm, hend, -⟩
      have hok := consume_eq_ok_iff.mpr ⟨hadm, hend, rfl⟩
      rw [hrun] at hok
      cases hok

end ProbeCoverage
