import Mathlib.Data.List.Nodup
import ProbeCoverage.Proofs.Acceptance
import ProbeCoverage.Proofs.Construction

/-!
# What every graph keeps

Whatever calls have been made on an empty graph, and whichever of them failed: an instruction and
its handle determine each other, every link is an edge that was registered, an instruction has taken
only branches that were registered on it, and what is covered has passed that on along its link.
-/

namespace ProbeCoverage

namespace FlowGraph

/-! ## Handles -/

/-- The instructions have one handle each, which leads back to the instruction. -/
structure Indexed (g : FlowGraph) : Prop where
  size : g.handles.size = g.nodes.size
  id?_iff : ∀ handle id, g.id? handle = some id ↔ g.handle? id = some handle

namespace Indexed

variable {g g' : FlowGraph}

theorem empty : Indexed {} where
  size := rfl
  id?_iff handle id := by simp [id?, handle?]

/-- Two instructions with the same handle would have the same place. -/
theorem nodup (h : Indexed g) : g.handles.toList.Nodup := by
  rw [List.nodup_iff_getElem?_ne_getElem?]
  intro i j hij hj heq
  have hget : g.handle? j = some g.handles.toList[j] := by simp [handle?]
  have hsame : g.handle? i = g.handle? j := by simpa [handle?] using heq
  have hi := (h.id?_iff _ i).mpr (hsame.trans hget)
  rw [(h.id?_iff _ j).mpr hget] at hi
  exact Nat.ne_of_gt hij (Option.some.inj hi)

theorem congr (h : Indexed g) (hhandles : g'.handles = g.handles) (hids : g'.ids = g.ids)
    (hsize : g'.nodes.size = g.nodes.size) : Indexed g' where
  size := by rw [hhandles, hsize, h.size]
  id?_iff handle id := by
    have hid := h.id?_iff handle id
    rwa [id?, handle?, ← hhandles, ← hids] at hid

theorem not_mem_handles (h : Indexed g) {handle : Handle} (hnew : ¬ handle ∈ g.ids) :
    handle ∉ g.handles.toList := by
  intro hmem
  obtain ⟨i, hi⟩ := List.getElem?_of_mem hmem
  have hid : g.id? handle = some i := (h.id?_iff handle i).mpr (by simpa [handle?] using hi)
  rw [Std.ExtTreeMap.mem_iff_isSome_getElem?] at hnew
  exact hnew (by rw [← id?, hid, Option.isSome_some])

theorem add (h : Indexed g) {handle : Handle} (hnew : ¬ handle ∈ g.ids) (node : Node) :
    Indexed { g with
      nodes := g.nodes.push node
      handles := g.handles.push handle
      ids := g.ids.insert handle g.nodes.size } where
  size := by simp [h.size]
  id?_iff other id := by
    have hold := h.id?_iff other id
    simp only [id?, handle?, ← Array.getElem?_toList] at hold ⊢
    rw [Array.toList_push, getElem?_append_singleton_iff (h.not_mem_handles hnew),
      Std.ExtTreeMap.getElem?_insert, Array.length_toList, h.size, ← hold]
    by_cases heq : handle = other
    · simp [heq]
    · simp [heq]

/-- A call adds a fresh instruction with its handle, or leaves all of them as they were. -/
theorem perform (h : Indexed g) (c : Call) : Indexed (c.perform.final g) := by
  by_cases hfits : c.Fits g
  · cases c with
    | add handle line signature =>
      have hrun := @add_eq_ok_iff handle { line, signature } _ g _ |>.mpr ⟨hfits, rfl, rfl⟩
      have hdiscard := Update.discard_eq_ok_iff.mpr ⟨_, hrun⟩
      rw [Call.perform, Update.final, hdiscard]
      exact h.add hfits _
    | register b fired =>
      rw [Call.perform, Update.final, register_eq_ok_iff.mpr ⟨hfits, rfl⟩]
      exact h.congr rfl rfl (Static.size_eq (static_signature.map_direct g.nodes b fired))
    | registerEdge e =>
      rw [Call.perform, Update.final, registerEdge_eq_ok_iff.mpr ⟨hfits.1, hfits.2, rfl⟩]
      exact h.congr rfl rfl (size_connect g.nodes e)
  · rw [Call.final_of_not_fits hfits]
    exact h

theorem build (calls : List Call) : Indexed (build calls) := by
  induction calls using List.reverseRecOn with
  | nil => exact .empty
  | append_singleton calls c ih =>
    rw [build_append]
    exact ih.perform c

end Indexed

/-! ## Links and branches -/

/-- One of the calls was `c`, and it succeeded. -/
def Accepted (calls : List Call) (c : Call) : Prop :=
  ∃ before after, calls = before ++ c :: after ∧ Succeeds before c

/-- One of the calls registered the branch: with a probe, or as an edge. -/
def Registered (calls : List Call) (b : Branch) : Prop :=
  (∃ fired, Accepted calls (.register b fired)) ∨
    ∃ target, Accepted calls (.registerEdge ⟨b, target⟩)

/-- What a graph that the calls have built looks like. -/
structure Represents (calls : List Call) (g : FlowGraph) : Prop where
  handles_nodup : g.handles.toList.Nodup
  handles_size : g.handles.size = g.size
  id?_iff : ∀ handle id, g.id? handle = some id ↔ g.handle? id = some handle
  linked : ∀ id n b, g.node? id = some n → n.link = some b →
    b.node < g.size ∧ Registered calls b ∧ Accepted calls (.registerEdge ⟨b, id⟩)
  taken : ∀ id n i, g.node? id = some n → i ∈ n.covered → Registered calls ⟨id, i⟩
  closed : ∀ id n b, g.node? id = some n → n.isCovered = true → n.link = some b →
    ∃ m, g.node? b.node = some m ∧ b.index ∈ m.covered
  refused : ∀ c, ¬ Succeeds calls c → build (calls ++ [c]) = g

theorem Heeded.accepted {calls : List Call} {e : Edge} (h : Heeded calls e) :
    Accepted calls (.registerEdge e) := by
  obtain ⟨before, after, hcalls, hok, -⟩ := h
  exact ⟨before, after, hcalls, hok⟩

theorem registered_of_executed {calls : List Call} {b : Branch}
    (h : Executed (Heeded calls) (Fired calls) b) : Registered calls b := by
  cases h with
  | fired hfired => exact Or.inl ⟨true, hfired⟩
  | @edge e i he _ => exact Or.inr ⟨e.target, he.accepted⟩

/-- Every sequence of calls on an empty graph keeps it represented. -/
theorem represents_build (calls : List Call) : Represents calls (build calls) where
  handles_nodup := (Indexed.build calls).nodup
  handles_size := (Indexed.build calls).size
  id?_iff := (Indexed.build calls).id?_iff
  linked id n b hn hlink := by
    have hb : Linked (build calls).nodes id b := ⟨n, hn, hlink⟩
    have he : Accepted calls (.registerEdge ⟨b, id⟩) :=
      ((follows_build calls).linked id b hb).accepted
    exact ⟨(follows_build calls).settled.inside id b hb, Or.inr ⟨id, he⟩, he⟩
  taken id n i hn hi := registered_of_executed (taken_build_iff.mp ⟨n, hn, hi⟩)
  closed id n b hn hcov hlink :=
    (follows_build calls).settled.closed id b ((covered_iff hn).mpr hcov) ⟨n, hn, hlink⟩
  refused c hc := by
    rw [build_append]
    exact Call.final_of_not_fits fun hfits ↦ hc (Call.answer_eq_ok_iff.mpr hfits)

end FlowGraph

end ProbeCoverage
