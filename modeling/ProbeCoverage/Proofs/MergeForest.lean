import ProbeCoverage.Proofs.Acceptance
import ProbeCoverage.Proofs.MergeLinks

/-!
# The forest of merged instructions

Merges may name any instructions, again and again and in a circle: the links stay a forest. The way
along the links from an instruction ends, at the one member of its class that has no link, and a
merge leads a whole class to where the way from the other instruction ended before.
-/

namespace ProbeCoverage

namespace Selection

/-- A link leads on from `id` to `next`. -/
def LinksTo (s : Selection) (id next : NodeId) : Prop := s.links[id]? = some next

/-- The way along the links from an instruction takes `k` steps and ends at `last`. -/
inductive Leads (s : Selection) : NodeId → Nat → NodeId → Prop
  | stop {id : NodeId} : s.links[id]? = none → Leads s id 0 id
  | step {id next last : NodeId} {k : Nat} :
      s.LinksTo id next → Leads s next k last → Leads s id (k + 1) last

variable {depth : NodeId → Nat} {s : Selection} {g : FlowGraph} {ds : List Decision}
  {id next last last' : NodeId} {j k : Nat}

/-! ## Ways along links -/

/-- There is one way on. -/
theorem Leads.unique (h : s.Leads id k last) (h' : s.Leads id j last') :
    j = k ∧ last' = last := by
  induction h generalizing j with
  | stop hid =>
    cases h' with
    | stop _ => exact ⟨rfl, rfl⟩
    | step hnext _ => cases hid.symm.trans hnext
  | step hid _ ih =>
    cases h' with
    | stop hnone => cases hid.symm.trans hnone
    | step hnext hrest =>
      cases Option.some.inj (hid.symm.trans hnext)
      obtain ⟨rfl, rfl⟩ := ih hrest
      exact ⟨rfl, rfl⟩

/-- The way takes a step for each link ahead. -/
theorem Rooted.leads_root (h : s.Rooted) (hdepth : Depths s.links depth) (id : NodeId) :
    s.Leads id (depth id) (s.root id) := by
  refine h.induction (P := fun id ↦ s.Leads id (depth id) (s.root id)) (fun id hid ↦ ?_)
    (fun id next hid hnext ↦ ?_) id
  · rw [hdepth.zero id hid, root_of_none hid]
    exact .stop hid
  · rw [hdepth.succ id next hid, h.root_of_some hid]
    exact .step hid hnext

theorem Depths.lt_of_transGen {a b : NodeId} (h : Depths s.links depth)
    (hab : Relation.TransGen s.LinksTo a b) : depth b < depth a := by
  induction hab with
  | single hlink =>
    rw [h.succ _ _ hlink]
    exact Nat.lt_succ_self _
  | tail _ hlink ih =>
    have hsucc := h.succ _ _ hlink
    omega

/-- The way from an instruction ends, and only at the instruction that stands for it. -/
theorem Rooted.exists_leads_iff (h : s.Rooted) (id : NodeId) :
    ∃ k ≤ s.links.size, ∀ j last, s.Leads id j last ↔ j = k ∧ last = s.root id := by
  have hrooted := h
  obtain ⟨depth, hdepth⟩ := h
  have hleads := hrooted.leads_root hdepth id
  refine ⟨depth id, hdepth.le_size id, fun j last ↦ ⟨fun hlast ↦ hleads.unique hlast, ?_⟩⟩
  rintro ⟨rfl, rfl⟩
  exact hleads

/-- No way comes back to where it was. -/
theorem Rooted.acyclic (h : s.Rooted) (id : NodeId) : ¬ Relation.TransGen s.LinksTo id id := by
  obtain ⟨depth, hdepth⟩ := h
  intro hcycle
  exact Nat.lt_irrefl _ (hdepth.lt_of_transGen hcycle)

/-! ## Classes and their ends -/

theorem sameClass_of_mem {a b : Handle} {idA idB : NodeId} (h : .merge a b ∈ ds)
    (hA : g.id? a = some idA) (hB : g.id? b = some idB) : SameClass g ds idA idB :=
  .rel _ _ (List.mem_filterMap.mpr ⟨_, h, by rw [merged?, hA, hB]⟩)

theorem existsUnique_unlinked (g : FlowGraph) (ds : List Decision) (id : NodeId) :
    ∃! last, SameClass g ds id last ∧ (ofDecisions g ds).links[last]? = none := by
  have hend := (rooted_ofDecisions g ds).links_root id
  refine ⟨(ofDecisions g ds).root id, ⟨sameClass_root id, hend⟩, ?_⟩
  rintro last ⟨hclass, hlast⟩
  rw [root_ofDecisions_eq_iff.mpr hclass, root_of_none hlast]

theorem named_of_linksTo (h : (ofDecisions g ds).LinksTo id next) :
    (∃ handle, g.id? handle = some id) ∧ ∃ handle, g.id? handle = some next := by
  have hrooted := rooted_ofDecisions g ds
  have hclass : SameClass g ds id next := root_ofDecisions_eq_iff.mp (hrooted.root_of_some h)
  refine hclass.eq_or_named.resolve_left ?_
  rintro rfl
  exact hrooted.acyclic id (.single h)

/-- A merge relabels the class of the second instruction. -/
theorem root_concat_merge {a b : Handle} {idA idB : NodeId} (hA : g.id? a = some idA)
    (hB : g.id? b = some idB) : (ofDecisions g (ds ++ [.merge a b])).root =
      relabel (ofDecisions g ds).root idA idB := by
  have hlinks := links_apply g (ofDecisions g ds) (.merge a b)
  rw [ofDecisions_concat, ← ((rooted_ofDecisions g ds).merge idA idB).2]
  apply root_congr
  rw [hlinks, merged?, hA, hB]

theorem root_concat_of_merged?_eq_none {d : Decision} (hd : merged? g d = none) :
    (ofDecisions g (ds ++ [d])).root = (ofDecisions g ds).root := by
  have hlinks := links_apply g (ofDecisions g ds) d
  rw [hd] at hlinks
  rw [ofDecisions_concat]
  exact root_congr hlinks

/-- The links form a forest whose trees are the classes of merged instructions. -/
structure IsForest (g : FlowGraph) (ds : List Decision) (s : Selection) : Prop where
  ends : ∀ id, ∃ k ≤ s.links.size, ∀ j last, s.Leads id j last ↔ j = k ∧ last = s.root id
  acyclic : ∀ id, ¬ Relation.TransGen s.LinksTo id id
  root_eq_iff : ∀ a b, s.root a = s.root b ↔ SameClass g ds a b
  unlinked : ∀ id, ∃! last, SameClass g ds id last ∧ s.links[last]? = none
  named : ∀ id next, s.LinksTo id next →
    (∃ handle, g.id? handle = some id) ∧ ∃ handle, g.id? handle = some next

/-- After `a` and `b` were merged, all that belongs to them now is led where `a` was led before, and
all else where it was. -/
structure Joins (g : FlowGraph) (ds : List Decision) (a b : Handle) (idA : NodeId) : Prop where
  joined : ∀ id, SameClass g (ds ++ [.merge a b]) id idA →
    (ofDecisions g (ds ++ [.merge a b])).root id = (ofDecisions g ds).root idA
  apart : ∀ id, ¬ SameClass g (ds ++ [.merge a b]) id idA →
    (ofDecisions g (ds ++ [.merge a b])).root id = (ofDecisions g ds).root id

theorem isForest_ofDecisions (g : FlowGraph) (ds : List Decision) :
    IsForest g ds (ofDecisions g ds) where
  ends := (rooted_ofDecisions g ds).exists_leads_iff
  acyclic := (rooted_ofDecisions g ds).acyclic
  root_eq_iff _ _ := root_ofDecisions_eq_iff
  unlinked := existsUnique_unlinked g ds
  named _ _ := named_of_linksTo

theorem joins_concat_merge {a b : Handle} {idA idB : NodeId} (hA : g.id? a = some idA)
    (hB : g.id? b = some idB) : Joins g ds a b idA := by
  have hroot := @root_concat_merge g ds a b idA idB hA hB
  have hA' : (ofDecisions g (ds ++ [.merge a b])).root idA = (ofDecisions g ds).root idA := by
    rw [hroot, relabel]
    split <;> rfl
  refine ⟨fun id h ↦ ?_, fun id h ↦ ?_⟩
  · rw [root_ofDecisions_eq_iff.mpr h, hA']
  · have hne : (ofDecisions g ds).root id ≠ (ofDecisions g ds).root idB := by
      intro heq
      apply h
      rw [← root_ofDecisions_eq_iff, hA', hroot, relabel, if_pos heq]
    rw [hroot, relabel, if_neg hne]

/-- Whatever decisions have been made, the links form a forest whose trees are the classes that the
merges of known instructions generate. One more merge of known instructions keeps the end of the
first for all that it joins; any other decision leaves all ends as they are. -/
theorem links_form_forest (g : FlowGraph) (ds : List Decision) :
    IsForest g ds (ofDecisions g ds) ∧
      (∀ a b idA idB, g.id? a = some idA → g.id? b = some idB → Joins g ds a b idA) ∧
      ∀ d, merged? g d = none → (ofDecisions g (ds ++ [d])).root = (ofDecisions g ds).root :=
  ⟨isForest_ofDecisions g ds, fun _ _ _ _ ↦ joins_concat_merge,
    fun _ ↦ root_concat_of_merged?_eq_none⟩

/-- Four instructions in a row. -/
def inARow : List Event :=
  [.instruction ⟨0⟩ none, .instruction ⟨1⟩ none, .instruction ⟨2⟩ none, .instruction ⟨3⟩ none,
    .endMethod]

/-- Merges that close a circle. -/
def circle : List Decision := [.merge ⟨1⟩ ⟨0⟩, .merge ⟨2⟩ ⟨1⟩, .merge ⟨0⟩ ⟨2⟩]

theorem links_form_forest_circle : ∃ g, FlowGraph.ofEvents none inARow = .ok g ∧
    (ofDecisions g circle).root 0 = (ofDecisions g circle).root 1 ∧
    (∃ k last, (ofDecisions g circle).Leads 0 k last) ∧
    (ofDecisions g (circle ++ [.merge ⟨3⟩ ⟨0⟩])).root 1 = (ofDecisions g circle).root 3 := by
  obtain ⟨g, hg⟩ : ∃ g, FlowGraph.ofEvents none inARow = .ok g := exists_eq_ok (by decide +kernel)
  have h0 : g.id? ⟨0⟩ = some 0 := (FlowGraph.id?_ofEvents hg).mpr rfl
  have h1 : g.id? ⟨1⟩ = some 1 := (FlowGraph.id?_ofEvents hg).mpr rfl
  have h3 : g.id? ⟨3⟩ = some 3 := (FlowGraph.id?_ofEvents hg).mpr rfl
  obtain ⟨forest, joins, -⟩ := links_form_forest g circle
  obtain ⟨k, -, hends⟩ := forest.ends 0
  have hclose : SameClass g circle 1 0 := sameClass_of_mem List.mem_cons_self h1 h0
  have hold : SameClass g (circle ++ [.merge ⟨3⟩ ⟨0⟩]) 1 0 :=
    sameClass_of_mem List.mem_cons_self h1 h0
  have hnew : SameClass g (circle ++ [.merge ⟨3⟩ ⟨0⟩]) 3 0 :=
    sameClass_of_mem List.mem_concat_self h3 h0
  exact ⟨g, hg, ((forest.root_eq_iff 1 0).mpr hclose).symm, ⟨k, _, (hends _ _).mpr ⟨rfl, rfl⟩⟩,
    (joins ⟨3⟩ ⟨0⟩ 3 0 h3 h0).joined 1 (hold.trans hnew.symm)⟩

end Selection

end ProbeCoverage
