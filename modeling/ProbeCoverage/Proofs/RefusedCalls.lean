import ProbeCoverage.Proofs.Objections

/-!
# Refused calls

The operations of a recording check first and write then: when one of them fails, nothing has been
written, unless a count overflowed in the middle of the writing. So a recording is as if the calls
that failed had not been made.
-/

namespace ProbeCoverage

namespace Update

variable {σ α β : Type} {u : Update σ α} {f : α → Update σ β} {s : σ}

/-- The update answers without a change of the state. -/
def Observes (u : Update σ α) (s : σ) : Prop := ∀ a t, u.run s = .ok a t → t = s

/-- A failure leaves the state as it was, unless a count overflows. -/
def Atomic (u : Update σ α) (s : σ) : Prop :=
  ∀ e t, u.run s = .error e t → e ≠ .overflow → t = s

/-- Nothing can go wrong but that a count overflows. -/
def Unfailing (u : Update σ α) (s : σ) : Prop := ∀ e t, u.run s = .error e t → e = .overflow

theorem Unfailing.atomic (h : Unfailing u s) : Atomic u s := fun e t hrun hpanic ↦
  absurd (h e t hrun) hpanic

theorem Unfailing.bind (hu : Unfailing u s) (hf : ∀ a t, u.run s = .ok a t → Unfailing (f a) t) :
    Unfailing (u >>= f) s := by
  intro e t hrun
  rcases run_bind_eq_error_iff.mp hrun with hu' | ⟨a, s', hu', hf'⟩
  · exact hu e t hu'
  · exact hf a s' hu' e t hf'

/-- Checks before the first change may fail. -/
theorem Atomic.bind (hu : Atomic u s) (hobserves : Observes u s)
    (hf : ∀ a, u.run s = .ok a s → Atomic (f a) s) : Atomic (u >>= f) s := by
  intro e t hrun hpanic
  rcases run_bind_eq_error_iff.mp hrun with hu' | ⟨a, s', hu', hf'⟩
  · exact hu e t hu' hpanic
  · obtain rfl := hobserves a s' hu'
    exact hf a hu' e t hf' hpanic

/-- After the first change nothing may fail. -/
theorem Atomic.bind_unfailing (hu : Atomic u s)
    (hf : ∀ a t, u.run s = .ok a t → Unfailing (f a) t) : Atomic (u >>= f) s := by
  intro e t hrun hpanic
  rcases run_bind_eq_error_iff.mp hrun with hu' | ⟨a, s', hu', hf'⟩
  · exact hu e t hu' hpanic
  · exact absurd (hf a s' hu' e t hf') hpanic

theorem unfailing_pure (a : α) (s : σ) : Unfailing (pure a : Update σ α) s := by
  intro e t hrun
  cases hrun

theorem unfailing_modify (g : σ → σ) (s : σ) : Unfailing (modify g : Update σ PUnit) s := by
  intro e t hrun
  cases hrun

theorem unfailing_get (s : σ) : Unfailing (get : Update σ σ) s := by
  intro e t hrun
  cases hrun

end Update

/-! ## Operations on the graph -/

namespace FlowGraph

variable {g : FlowGraph} {source target id : NodeId}

theorem unfailing_countBranch (h : id < g.nodes.size) : Update.Unfailing (countBranch id) g := by
  intro e t hrun
  have hget : g.nodes[id]? = some g.nodes[id] := Array.getElem?_eq_getElem h
  change countBranch id g = _ at hrun
  simp only [countBranch, hget, addBelow] at hrun
  split at hrun
  next k hk => cases hrun
  next f hf =>
    split at hf
    · cases hf
    · cases hf
      cases hrun
      rfl

theorem unfailing_register (h : id < g.nodes.size) (taken : Bool) (branch : Nat) :
    Update.Unfailing (register id taken branch) g := by
  rw [register]
  refine (unfailing_countBranch h).bind fun _ t _ ↦ ?_
  cases taken with
  | true => exact Update.unfailing_modify _ t
  | false => exact Update.unfailing_pure () t

theorem unfailing_requireId (h : id < g.nodes.size) : Update.Unfailing (requireId id) g := by
  intro e t hrun
  rw [requireId_eq, if_pos h] at hrun
  cases hrun

theorem observes_requireId (id : NodeId) (g : FlowGraph) : Update.Observes (requireId id) g := by
  intro a t hrun
  rw [requireId_eq] at hrun
  split at hrun <;> cases hrun
  rfl

theorem unfailing_registerEdge (hsource : source < g.nodes.size) (htarget : target < g.nodes.size)
    (branch : Nat) : Update.Unfailing (registerEdge source target branch) g := by
  rw [registerEdge]
  refine (unfailing_requireId hsource).bind fun _ t ht ↦ ?_
  obtain rfl := observes_requireId _ _ _ _ ht
  refine (unfailing_requireId htarget).bind fun _ t ht ↦ ?_
  obtain rfl := observes_requireId _ _ _ _ ht
  refine (unfailing_countBranch hsource).bind fun _ t _ ↦ ?_
  refine (Update.unfailing_modify _ t).bind fun _ t _ ↦ ?_
  refine (Update.unfailing_get t).bind fun g' t _ ↦ ?_
  split
  · exact Update.unfailing_modify _ t
  · exact Update.unfailing_pure _ t

theorem atomic_add (handle : Handle) (node : Node) (g : FlowGraph) :
    Update.Atomic (add handle node) g := by
  intro e t hrun _
  by_cases h : handle ∈ g.ids
  · rw [run_add_of_mem h] at hrun
    cases hrun
    rfl
  · change add handle node g = _ at hrun
    rw [add, if_neg h] at hrun
    cases hrun

end FlowGraph

namespace Recording

open Update

variable {r r' : Recording} {α : Type} {op : Update FlowGraph α}

theorem unfailing_onGraph (h : Unfailing op r.graph) : Unfailing (onGraph op) r := by
  intro e t hrun
  obtain ⟨g, hg, rfl⟩ := onGraph_eq_error_iff.mp hrun
  exact h e g hg

theorem atomic_onGraph (h : Atomic op r.graph) : Atomic (onGraph op) r := by
  intro e t hrun hpanic
  obtain ⟨g, hg, rfl⟩ := onGraph_eq_error_iff.mp hrun
  rw [h e g hg hpanic]

/-! ## Operations on the recording -/

theorem atomic_currentId (r : Recording) : Atomic currentId r := by
  intro e t hrun _
  rw [run_currentId] at hrun
  split at hrun <;> cases hrun
  rfl

theorem observes_currentId (r : Recording) : Observes currentId r := fun _ _ h ↦
  (currentId_eq_ok_iff.mp h).2

theorem atomic_requireBranch (id : NodeId) (branch : Nat) (r : Recording) :
    Atomic (requireBranch id branch) r := by
  intro e t hrun _
  rw [run_requireBranch] at hrun
  split at hrun <;> cases hrun
  rfl

theorem observes_requireBranch (id : NodeId) (branch : Nat) (r : Recording) :
    Observes (requireBranch id branch) r := fun _ _ h ↦ (requireBranch_eq_ok_iff.mp h).2

theorem atomic_readProbe (probe : Nat) (r : Recording) : Atomic (readProbe probe) r := by
  intro e t hrun _
  rw [run_readProbe] at hrun
  split at hrun <;> cases hrun
  rfl

theorem observes_readProbe (probe : Nat) (r : Recording) : Observes (readProbe probe) r :=
  fun _ _ h ↦ (readProbe_eq_ok_iff.mp h).2.2

/-- The current instruction is one of the graph. -/
def Located (r : Recording) : Prop := ∀ id, r.current = some id → id < r.graph.nodes.size

theorem atomic_addJump (target : Label) (branch : Nat) (r : Recording) :
    Atomic (addJump target branch) r := by
  rw [addJump]
  refine (atomic_currentId r).bind (observes_currentId r) fun source _ ↦ ?_
  refine (atomic_requireBranch source branch r).bind (observes_requireBranch source branch r)
    fun _ _ ↦ ?_
  exact (unfailing_modify _ r).atomic

theorem atomic_addProbe (hr : r.Located) (probe branch : Nat) :
    Atomic (addProbe probe branch) r := by
  rw [addProbe]
  refine (atomic_currentId r).bind (observes_currentId r) fun id hid ↦ ?_
  refine (atomic_requireBranch id branch r).bind (observes_requireBranch id branch r) fun _ _ ↦ ?_
  refine (atomic_readProbe probe r).bind (observes_readProbe probe r) fun fired _ ↦ ?_
  -- the instruction is stamped first, but it is one of the graph
  refine (unfailing_modify _ r).atomic.bind_unfailing fun _ t ht ↦ ?_
  cases ht
  refine unfailing_onGraph (FlowGraph.unfailing_register ?_ fired branch)
  change id < (r.graph.nodes.modify id _).size
  rw [Array.size_modify]
  exact hr id (currentId_eq_ok_iff.mp hid).1

theorem atomic_addInstruction (hr : r.Located) (handle : Handle) (signature : Option String) :
    Atomic (addInstruction handle signature) r := by
  rw [addInstruction]
  refine (unfailing_get r).atomic.bind (fun _ _ h ↦ by cases h; rfl) fun r₀ _ ↦ ?_
  refine (atomic_onGraph (FlowGraph.atomic_add handle _ r.graph)).bind_unfailing fun id t ht ↦ ?_
  obtain ⟨g, hg, rfl⟩ := onGraph_eq_ok_iff.mp ht
  obtain ⟨-, rfl, rfl⟩ := FlowGraph.add_eq_ok_iff.mp hg
  refine Unfailing.bind (unfailing_modify _ _) fun _ t ht ↦ ?_
  cases ht
  refine (unfailing_get _).bind fun r₁ t ht ↦ ?_
  cases ht
  have hsize : r.graph.nodes.size < (r.graph.nodes.push { line := r₀.line, signature }).size := by
    rw [Array.size_push]
    exact Nat.lt_succ_self _
  cases hcurrent : r.current with
  | none => exact (unfailing_modify _ _).bind fun _ t _ ↦ unfailing_pure _ t
  | some previous =>
    -- the edge leads from an instruction of the graph to the new one
    have hprevious := Nat.lt_trans (hr previous hcurrent) hsize
    refine (unfailing_onGraph (FlowGraph.unfailing_registerEdge hprevious hsize 0)).bind
      fun _ t _ ↦ ?_
    exact (unfailing_modify _ t).bind fun _ t _ ↦ unfailing_pure _ t

theorem unfailing_addLabel (label : Label) (successor : Bool) (r : Recording) :
    Unfailing (addLabel label successor) r := by
  cases successor with
  | true => exact (unfailing_modify _ r).bind fun _ t _ ↦ unfailing_pure _ t
  | false => exact (unfailing_modify _ r).bind fun _ t _ ↦ unfailing_modify _ t

theorem atomic_accept (hr : r.Located) (e : Event) : Atomic (accept e) r := by
  intro f t hrun hpanic
  cases hended : r.ended with
  | true =>
    have hobjection : r.objection? e = some (.afterEnd e) := by rw [objection?, if_pos hended]
    rw [run_accept_of_objection hobjection] at hrun
    cases hrun
    rfl
  | false =>
    unfold accept at hrun
    rw [EStateM.run_bind, EStateM.run_get] at hrun
    simp only [hended, Bool.false_eq_true, if_false] at hrun
    cases e with
    | line number => cases hrun
    | label label successor => exact (unfailing_addLabel label successor r).atomic f t hrun hpanic
    | instruction handle signature =>
      rw [Update.run_discard] at hrun
      cases hadd : (addInstruction handle signature).run r with
      | ok id t' =>
        rw [hadd] at hrun
        cases hrun
      | error f' t' =>
        rw [hadd] at hrun
        cases hrun
        exact atomic_addInstruction hr handle signature _ _ hadd hpanic
    | jump target branch => exact atomic_addJump target branch r f t hrun hpanic
    | probe probe branch => exact atomic_addProbe hr probe branch f t hrun hpanic
    | noSuccessor => cases hrun
    | endMethod => cases hrun

/-! ## Calls -/

/-- A call of one operation. -/
inductive Call
  | setLine (number : Nat)
  | addLabel (label : Label) (successor : Bool)
  | addInstruction (handle : Handle) (signature : Option String)
  | addJump (target : Label) (branch : Nat)
  | addProbe (probe branch : Nat)
  | breakFlow
  | accept (event : Event)
deriving DecidableEq

namespace Call

/-- Answers with the new instruction, if the operation does. -/
def perform : Call → Update Recording (Option NodeId)
  | setLine number => do
    Recording.setLine number
    return none
  | addLabel label successor => do
    Recording.addLabel label successor
    return none
  | addInstruction handle signature => do
    return some (← Recording.addInstruction handle signature)
  | addJump target branch => do
    Recording.addJump target branch
    return none
  | addProbe probe branch => do
    Recording.addProbe probe branch
    return none
  | breakFlow => do
    Recording.breakFlow
    return none
  | accept event => do
    Recording.accept event
    return none

/-- The event that a call amounts to. -/
def event : Call → Event
  | setLine number => .line number
  | addLabel label successor => .label label successor
  | addInstruction handle signature => .instruction handle signature
  | addJump target branch => .jump target branch
  | addProbe probe branch => .probe probe branch
  | breakFlow => .noSuccessor
  | accept event => event

theorem atomic_perform (hr : r.Located) (c : Call) : Atomic c.perform r := by
  cases c with
  | setLine number => exact ((unfailing_modify _ r).bind fun _ t _ ↦ unfailing_pure _ t).atomic
  | addLabel label successor =>
    exact ((unfailing_addLabel label successor r).bind fun _ t _ ↦ unfailing_pure _ t).atomic
  | addInstruction handle signature =>
    exact (atomic_addInstruction hr handle signature).bind_unfailing fun _ t _ ↦ unfailing_pure _ t
  | addJump target branch =>
    exact (atomic_addJump target branch r).bind_unfailing fun _ t _ ↦ unfailing_pure _ t
  | addProbe probe branch =>
    exact (atomic_addProbe hr probe branch).bind_unfailing fun _ t _ ↦ unfailing_pure _ t
  | breakFlow => exact ((unfailing_modify _ r).bind fun _ t _ ↦ unfailing_pure _ t).atomic
  | accept event => exact (atomic_accept hr event).bind_unfailing fun _ t _ ↦ unfailing_pure _ t

theorem perform_eq_ok (c : Call) {a : Option NodeId} (h : c.perform.run r = .ok a r') :
    r' = r.step c.event := by
  cases c with
  | setLine number =>
    cases h
    rfl
  | addLabel label successor =>
    cases successor with
    | true =>
      cases h
      rfl
    | false =>
      cases h
      rfl
  | addInstruction handle signature =>
    obtain ⟨id, t, hadd, hpure⟩ := run_bind_eq_ok_iff.mp h
    cases hpure
    exact (addInstruction_eq_ok_iff.mp hadd).2.2
  | addJump target branch =>
    obtain ⟨_, t, hadd, hpure⟩ := run_bind_eq_ok_iff.mp h
    cases hpure
    exact (addJump_eq_ok_iff.mp hadd).2
  | addProbe probe branch =>
    obtain ⟨_, t, hadd, hpure⟩ := run_bind_eq_ok_iff.mp h
    cases hpure
    exact (addProbe_eq_ok_iff.mp hadd).2
  | breakFlow =>
    cases h
    rfl
  | accept event =>
    obtain ⟨_, t, haccept, hpure⟩ := run_bind_eq_ok_iff.mp h
    cases hpure
    exact (accept_eq_ok_iff.mp haccept).2.2

end Call

theorem Located.step (hr : r.Located) (e : Event) : (r.step e).Located := by
  cases e with
  | line number => exact hr
  | label label successor =>
    cases successor with
    | true => exact hr
    | false =>
      intro id hid
      cases hid
  | instruction handle signature =>
    intro id hid
    cases hid
    change r.graph.nodes.size < (r.entered signature).size
    rw [entered]
    split <;> simp [fresh]
  | jump target branch =>
    cases hcurrent : r.current with
    | none => simpa [Recording.step, hcurrent] using hr
    | some source => simpa [Recording.step, hcurrent, Located] using hr
  | probe probe branch =>
    cases hcurrent : r.current with
    | none => simpa [Recording.step, hcurrent] using hr
    | some id =>
      have hsize := Static.size_eq (static_signature.map_direct
        (stamp r.graph.nodes id probe) ⟨id, branch⟩ (fires r.probes probe))
      intro id' hid'
      simp only [Recording.step, hcurrent, withNodes] at hid' ⊢
      rw [hsize, stamp, Array.size_modify]
      exact hr id' (hcurrent.trans hid')
  | noSuccessor =>
    intro id hid
    cases hid
  | endMethod => exact hr

theorem Located.foldl_step (hr : r.Located) (es : List Event) :
    (es.foldl Recording.step r).Located := by
  induction es generalizing r with
  | nil => exact hr
  | cons e es ih => exact ih (hr.step e)

/-! ## Whole streams -/

theorem forM_accept_eq_error_iff {es : List Event} {e : Fault} :
    (es.forM accept).run r = .error e r' ↔ ∃ before event after t, es = before ++ event :: after ∧
      (before.forM accept).run r = .ok () t ∧ (accept event).run t = .error e r' := by
  induction es generalizing r with
  | nil =>
    constructor
    · intro h
      cases h
    · rintro ⟨before, event, after, t, hes, -⟩
      simp at hes
  | cons first es ih =>
    change (accept first >>= fun _ ↦ es.forM accept).run r = _ ↔ _
    rw [run_bind_eq_error_iff]
    constructor
    · rintro (hfirst | ⟨_, s, hfirst, hes⟩)
      · exact ⟨[], first, es, r, rfl, rfl, hfirst⟩
      · obtain ⟨before, event, after, t, rfl, hbefore, hevent⟩ := ih.mp hes
        refine ⟨first :: before, event, after, t, rfl, ?_, hevent⟩
        exact run_bind_eq_ok_iff.mpr ⟨(), s, hfirst, hbefore⟩
    · rintro ⟨before, event, after, t, hes, hbefore, hevent⟩
      cases before with
      | nil =>
        cases hes
        cases hbefore
        exact .inl hevent
      | cons head before =>
        cases hes
        obtain ⟨_, s, hhead, hbefore⟩ := run_bind_eq_ok_iff.mp hbefore
        exact .inr ⟨(), s, hhead, ih.mpr ⟨before, event, after, t, rfl, hbefore, hevent⟩⟩

theorem consume_eq_error_iff {es : List Event} {e : Fault} : (consume es).run r = .error e r' ↔
    (es.forM accept).run r = .error e r' ∨
      (es.forM accept).run r = .ok () r' ∧ r'.ended = false ∧ e = .unterminated es.length := by
  rw [consume, run_bind_eq_error_iff]
  refine or_congr_right ⟨?_, ?_⟩
  · rintro ⟨_, t, hall, hlast⟩
    rw [EStateM.run_bind, EStateM.run_get] at hlast
    cases hended : t.ended with
    | true => simp [hended] at hlast
    | false =>
      simp only [hended, Bool.false_eq_true, if_false] at hlast
      cases hlast
      exact ⟨hall, hended, rfl⟩
  · rintro ⟨hall, hended, rfl⟩
    refine ⟨(), r', hall, ?_⟩
    rw [EStateM.run_bind, EStateM.run_get]
    simp [hended]

/-- A stream that is refused at an event has recorded the events before it. -/
theorem Located.forM_accept_eq_error_iff (hr : r.Located) {es : List Event} {e : Fault}
    (hpanic : e ≠ .overflow) : (es.forM accept).run r = .error e r' ↔
      ∃ before event after, es = before ++ event :: after ∧
        (before.forM accept).run r = .ok () r' ∧ (accept event).run r' = .error e r' := by
  rw [Recording.forM_accept_eq_error_iff]
  constructor
  · rintro ⟨before, event, after, t, hes, hbefore, hevent⟩
    obtain ⟨-, rfl⟩ := forM_accept_eq_ok_iff.mp hbefore
    obtain rfl := atomic_accept (hr.foldl_step before) event e r' hevent hpanic
    exact ⟨before, event, after, hes, hbefore, hevent⟩
  · rintro ⟨before, event, after, hes, hbefore, hevent⟩
    exact ⟨before, event, after, r', hes, hbefore, hevent⟩

/-! ## Recordings that calls lead to -/

/-- A recording that calls have led to, whatever they answered, unless a count overflowed. -/
inductive Built : Recording → Prop
  | new (probes : Option (Array Bool)) : Built { probes }
  | call {r : Recording} (h : Built r) (c : Call) (hpanic : c.perform.answer r ≠ .error .overflow) :
    Built (c.perform.final r)
  | consume {r : Recording} (h : Built r) (es : List Event)
    (hpanic : (consume es).answer r ≠ .error .overflow) : Built ((consume es).final r)

theorem Built.located (h : r.Built) : r.Located := by
  induction h with
  | new probes =>
    intro id hid
    cases hid
  | call _ c hpanic hr =>
    rw [answer] at hpanic
    rw [final]
    cases hrun : c.perform.run _ with
    | ok a t =>
      obtain rfl := c.perform_eq_ok hrun
      exact hr.step c.event
    | error e t =>
      rw [hrun] at hpanic
      obtain rfl := c.atomic_perform hr e t hrun fun he ↦ hpanic (he ▸ rfl)
      exact hr
  | consume _ es hpanic hr =>
    rw [answer] at hpanic
    rw [final]
    cases hrun : (Recording.consume es).run _ with
    | ok a t =>
      obtain ⟨-, -, rfl⟩ := consume_eq_ok_iff.mp hrun
      exact hr.foldl_step es
    | error e t =>
      rw [hrun] at hpanic
      rcases consume_eq_error_iff.mp hrun with hstopped | ⟨hall, -⟩
      · obtain ⟨before, _, _, -, hbefore, -⟩ :=
          (hr.forM_accept_eq_error_iff fun he ↦ hpanic (he ▸ rfl)).mp hstopped
        obtain ⟨-, rfl⟩ := forM_accept_eq_ok_iff.mp hbefore
        exact hr.foldl_step before
      · obtain ⟨-, rfl⟩ := forM_accept_eq_ok_iff.mp hall
        exact hr.foldl_step es

/-- One call after the other, whatever each of them answers. -/
def submit (r : Recording) : List Call → List (Except Fault (Option NodeId)) × Recording
  | [] => ([], r)
  | c :: cs =>
    let rest := (c.perform.final r).submit cs
    (c.perform.answer r :: rest.1, rest.2)

/-- The calls that have not failed. -/
def successful (cs : List Call) (answers : List (Except Fault (Option NodeId))) : List Call :=
  ((cs.zip answers).filter (·.2.isOk)).map (·.1)

theorem submit_successful (h : r.Built) (cs : List Call)
    (hpanic : .error .overflow ∉ (r.submit cs).1) :
    r.submit (successful cs (r.submit cs).1) =
      ((r.submit cs).1.filter (·.isOk), (r.submit cs).2) := by
  induction cs generalizing r with
  | nil => rfl
  | cons c cs ih =>
    rw [submit] at hpanic ⊢
    obtain ⟨hanswer, hrest⟩ := not_or.mp (List.mem_cons.not.mp hpanic)
    have hlater := ih (h.call c (Ne.symm hanswer)) hrest
    cases hrun : c.perform.run r with
    | ok a t =>
      have hok : c.perform.answer r = .ok a := by rw [answer, hrun]
      rw [hok]
      change r.submit (c :: successful cs _) = _
      rw [submit, hok, hlater]
      rfl
    | error e t =>
      have herror : c.perform.answer r = .error e := by rw [answer, hrun]
      have hleft : c.perform.final r = r := by
        rw [final, hrun]
        exact c.atomic_perform h.located e t hrun fun he ↦ hanswer (he ▸ herror.symm)
      rw [hleft] at hlater ⊢
      rw [herror]
      exact hlater

/-- A call that fails leaves the recording as it was, so that all the others answer, and the
recording finishes, as without it. A stream that is refused at an event leaves what the events
before it have recorded. -/
theorem Built.refuses (h : r.Built) :
    (∀ c e r', (Call.perform c).run r = .error e r' → e ≠ .overflow → r' = r) ∧
    (∀ cs, .error .overflow ∉ (r.submit cs).1 →
      r.submit (successful cs (r.submit cs).1) =
        ((r.submit cs).1.filter (·.isOk), (r.submit cs).2)) ∧
    ∀ es e r', e ≠ .overflow → ((Recording.consume es).run r = .error e r' ↔
      (∃ before event after, es = before ++ event :: after ∧
        (before.forM accept).run r = .ok () r' ∧ (accept event).run r' = .error e r') ∨
      (es.forM accept).run r = .ok () r' ∧ r'.ended = false ∧ e = .unterminated es.length) := by
  refine ⟨fun c e t ↦ c.atomic_perform h.located e t, submit_successful h, fun es e t hpanic ↦ ?_⟩
  rw [consume_eq_error_iff, h.located.forM_accept_eq_error_iff hpanic]

theorem Built.refuses_pending_labels :
    let start : Recording := { probes := some #[true] }
    let r := (start.submit [.addInstruction ⟨0⟩ none, .addLabel ⟨1⟩ true]).2
    let cs : List Call := [.addInstruction ⟨0⟩ none, .addJump ⟨1⟩ 65536, .addProbe 1 0,
      .addInstruction ⟨1⟩ none, .breakFlow, .addProbe 0 0, .accept .endMethod, .accept (.line 3)]
    let es : List Event := [.line 3, .instruction ⟨2⟩ none, .instruction ⟨0⟩ none, .endMethod]
    r.Built ∧
      (Call.addInstruction ⟨0⟩ none).perform.run r = .error (.duplicateInstruction ⟨0⟩) r ∧
      (r.submit cs).1 = [.error (.duplicateInstruction ⟨0⟩), .error (.branchOutOfRange ⟨0⟩ 65536),
        .error (.probeOutOfBounds 1 1), .ok (some 1), .ok none, .error .noCurrentInstruction,
        .ok none, .error (.afterEnd (.line 3))] ∧
      r.submit [.addInstruction ⟨1⟩ none, .breakFlow, .accept .endMethod] =
        ([.ok (some 1), .ok none, .ok none], (r.submit cs).2) ∧
      ∃ r', (Recording.consume es).run r = .error (.duplicateInstruction ⟨0⟩) r' ∧
        ([.line 3, .instruction ⟨2⟩ none].forM accept).run r = .ok () r' := by
  intro start r cs es
  have hbuilt : r.Built :=
    ((Built.new (some #[true])).call (.addInstruction ⟨0⟩ none) (by decide +kernel)).call
      (.addLabel ⟨1⟩ true) (by decide +kernel)
  obtain ⟨hcall, hcalls, hstream⟩ := Built.refuses hbuilt
  have hanswers : (r.submit cs).1 = [.error (.duplicateInstruction ⟨0⟩),
      .error (.branchOutOfRange ⟨0⟩ 65536), .error (.probeOutOfBounds 1 1), .ok (some 1), .ok none,
      .error .noCurrentInstruction, .ok none, .error (.afterEnd (.line 3))] := by decide +kernel
  have hheeded := hcalls cs (by rw [hanswers]; decide)
  rw [hanswers] at hheeded
  refine ⟨hbuilt, ?_, hanswers, hheeded, ?_⟩
  · have hanswer : (Call.addInstruction ⟨0⟩ none).perform.answer r =
        .error (.duplicateInstruction ⟨0⟩) := by decide +kernel
    obtain ⟨r', hrun⟩ := exists_run_of_answer_error hanswer
    rw [hrun, hcall _ _ _ hrun (by decide)]
  · have hanswer : ([.line 3, .instruction ⟨2⟩ none].forM accept).answer r = .ok () := by
      decide +kernel
    obtain ⟨r', hbefore⟩ := exists_run_of_answer hanswer
    refine ⟨r', (hstream es _ r' (by decide)).mpr (.inl ⟨_, .instruction ⟨0⟩ none, _, rfl, hbefore,
      run_accept_of_objection ?_⟩), hbefore⟩
    have hleft : r' = ([.line 3, .instruction ⟨2⟩ none].forM accept).final r := by
      rw [final, hbefore]
    rw [hleft]
    decide +kernel

end Recording

end ProbeCoverage
