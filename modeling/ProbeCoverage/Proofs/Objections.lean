import ProbeCoverage.Proofs.BranchTotal

/-!
# What a recording objects to

An event that a recording does not take is refused with one fault, the first of its reasons, before
anything has changed. Otherwise there is nothing but the number of branches that could be wrong.
-/

namespace ProbeCoverage

/-- Why the probe cannot be looked up. -/
def unreadable? (probes : Option (Array Bool)) (probe : Nat) : Option Fault :=
  match probes with
  | none => none
  | some probes =>
    if probe < probes.size then none else some (.probeOutOfBounds probe probes.size)

theorem unreadable?_eq_none_iff {probes : Option (Array Bool)} {probe : Nat} :
    unreadable? probes probe = none ↔ Readable probes probe := by
  cases probes with
  | none => simp [unreadable?, Readable]
  | some probes => simp [unreadable?, Readable]

namespace Recording

variable {r : Recording} {e : Event}

/-- Why no branch of the current instruction can be declared. -/
def branchObjection? (r : Recording) (branch : Nat) : Option Fault :=
  match r.current with
  | none => some .noCurrentInstruction
  | some id =>
    if maxBranch < branch then
      some ((r.graph.handle? id).elim (.unknownInstruction id) (.branchOutOfRange · branch))
    else none

/-- Why the recording does not take the event, unless it has ended. -/
def liveObjection? (r : Recording) : Event → Option Fault
  | .instruction handle _ =>
    if handle ∈ r.graph.ids then some (.duplicateInstruction handle) else none
  | .jump _ branch => r.branchObjection? branch
  | .probe probe branch => (r.branchObjection? branch).or (unreadable? r.probes probe)
  | .line _ | .label _ _ | .noSuccessor | .endMethod => none

def objection? (r : Recording) (e : Event) : Option Fault :=
  if r.ended then some (.afterEnd e) else r.liveObjection? e

/-! ## Refused events -/

theorem run_currentId (r : Recording) : currentId.run r = match r.current with
    | some id => .ok id r
    | none => .error .noCurrentInstruction r := by
  unfold currentId
  rw [EStateM.run_bind, EStateM.run_get]
  cases hcurrent : r.current with
  | none => simp [hcurrent]
  | some id => simp [hcurrent]

theorem run_requireBranch (r : Recording) (id : NodeId) (branch : Nat) :
    (requireBranch id branch).run r =
      if maxBranch < branch then
        .error ((r.graph.handle? id).elim (.unknownInstruction id) (.branchOutOfRange · branch)) r
      else .ok () r := by
  unfold requireBranch
  split
  · rw [EStateM.run_bind, EStateM.run_get]
    cases hhandle : r.graph.handle? id with
    | none => simp [hhandle]
    | some handle => simp [hhandle]
  · rfl

theorem run_readProbe (r : Recording) (probe : Nat) :
    (readProbe probe).run r = match unreadable? r.probes probe with
      | some f => .error f r
      | none => .ok (fires r.probes probe) r := by
  unfold readProbe unreadable?
  rw [EStateM.run_bind, EStateM.run_get]
  cases hprobes : r.probes with
  | none => simp [hprobes, fires]
  | some probes =>
    by_cases hlt : probe < probes.size
    · simp [hprobes, hlt, fires]
    · simp [hprobes, hlt]

theorem run_addJump_of_objection {target : Label} {branch : Nat} {f : Fault}
    (h : r.branchObjection? branch = some f) : (addJump target branch).run r = .error f r := by
  unfold addJump
  rw [EStateM.run_bind, run_currentId]
  rw [branchObjection?] at h
  cases hcurrent : r.current with
  | none =>
    rw [hcurrent] at h
    rw [← Option.some.inj h]
  | some id =>
    simp only [hcurrent] at h ⊢
    rw [EStateM.run_bind, run_requireBranch]
    split at h
    next hlt => rw [if_pos hlt, ← Option.some.inj h]
    next => cases h

theorem run_addProbe_of_objection {probe branch : Nat} {f : Fault}
    (h : (r.branchObjection? branch).or (unreadable? r.probes probe) = some f) :
    (addProbe probe branch).run r = .error f r := by
  unfold addProbe
  rw [EStateM.run_bind, run_currentId]
  rw [branchObjection?] at h
  cases hcurrent : r.current with
  | none =>
    simp only [hcurrent, Option.some_or] at h
    rw [← Option.some.inj h]
  | some id =>
    simp only [hcurrent] at h ⊢
    rw [EStateM.run_bind, run_requireBranch]
    by_cases hlt : maxBranch < branch
    · rw [if_pos hlt, Option.some_or] at h
      rw [if_pos hlt, ← Option.some.inj h]
    · rw [if_neg hlt, Option.none_or] at h
      rw [if_neg hlt]
      simp only [EStateM.run_bind, run_readProbe, h]

theorem run_addInstruction_of_mem {handle : Handle} (h : handle ∈ r.graph.ids)
    (signature : Option String) :
    (addInstruction handle signature).run r = .error (.duplicateInstruction handle) r := by
  unfold addInstruction
  simp only [EStateM.run_bind, EStateM.run_get, run_onGraph, FlowGraph.run_add_of_mem h]

/-- A refused event changes nothing. -/
theorem run_accept_of_objection {f : Fault} (h : r.objection? e = some f) :
    (accept e).run r = .error f r := by
  unfold accept
  rw [EStateM.run_bind, EStateM.run_get]
  rw [objection?] at h
  cases hended : r.ended with
  | true =>
    rw [if_pos hended] at h
    rw [← Option.some.inj h]
    simp [hended]
  | false =>
    rw [if_neg (by rw [hended]; exact Bool.false_ne_true)] at h
    simp only [hended, Bool.false_eq_true, if_false]
    cases e with
    | instruction handle signature =>
      rw [liveObjection?] at h
      split at h
      next hmem =>
        rw [Update.run_discard, run_addInstruction_of_mem hmem, ← Option.some.inj h]
      next => cases h
    | jump target branch => exact run_addJump_of_objection h
    | probe probe branch => exact run_addProbe_of_objection h
    | line number => cases h
    | label label successor => cases h
    | noSuccessor => cases h
    | endMethod => cases h

/-! ## Events that are taken -/

/-- The current instruction is one of the graph, and another branch can be counted. -/
structure Spacious (r : Recording) : Prop where
  current : ∀ id, r.current = some id → id < r.graph.nodes.size
  total : branchTotal r.graph.nodes + 1 < countBound

theorem exists_current_of_no_objection {branch : Nat} (h : r.branchObjection? branch = none) :
    ∃ id, r.current = some id ∧ branch ≤ maxBranch := by
  rw [branchObjection?] at h
  cases hcurrent : r.current with
  | none =>
    rw [hcurrent] at h
    cases h
  | some id =>
    rw [hcurrent] at h
    refine ⟨id, rfl, Nat.not_lt.mp fun hlt ↦ ?_⟩
    simp [hlt] at h

theorem Spacious.admits (hr : r.Spacious) (h : r.objection? e = none) :
    r.ended = false ∧ Admits r e := by
  rw [objection?] at h
  cases hended : r.ended with
  | true =>
    rw [if_pos hended] at h
    cases h
  | false =>
    refine ⟨rfl, ?_⟩
    rw [if_neg (by rw [hended]; exact Bool.false_ne_true)] at h
    cases e with
    | instruction handle signature =>
      rw [liveObjection?] at h
      split at h
      next => cases h
      next hnew =>
        refine ⟨hnew, fun previous hprevious ↦ room_of_total ?_ ?_⟩
        · exact Nat.lt_of_lt_of_le (hr.current previous hprevious) (by simp [fresh])
        · rw [branchTotal_fresh]
          exact hr.total
    | jump target branch => exact exists_current_of_no_objection h
    | probe probe branch =>
      rw [liveObjection?, Option.or_eq_none_iff] at h
      obtain ⟨id, hid, hle⟩ := exists_current_of_no_objection h.1
      have hroom := room_of_total (hr.current id hid) hr.total
      exact ⟨id, hid, hle, unreadable?_eq_none_iff.mp h.2, hroom⟩
    | line number => trivial
    | label label successor => trivial
    | noSuccessor => trivial
    | endMethod => trivial

theorem Spacious.run_accept (hr : r.Spacious) (h : r.objection? e = none) :
    (accept e).run r = .ok () (r.step e) := by
  obtain ⟨hended, hadmits⟩ := hr.admits h
  exact accept_eq_ok_iff.mpr ⟨hended, hadmits, rfl⟩

end Recording

end ProbeCoverage
