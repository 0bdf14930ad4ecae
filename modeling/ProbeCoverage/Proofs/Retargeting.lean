import ProbeCoverage.Proofs.CoverageOrder
import ProbeCoverage.Proofs.MergeClasses

/-!
# Replaced branches

Branches are replaced in the order of the code. A target that comes before the source and had its
own branches replaced is read as it is by then: it is covered if one of its targets is, and not if
it is covered itself.
-/

namespace ProbeCoverage

namespace Selection

/-! ## The replacement that counts -/

/-- The targets known to `g`, if the decision replaces the branches of `source`. -/
def targetsOf? (g : FlowGraph) (source : NodeId) : Decision → Option (List NodeId)
  | .retarget handle targets =>
    if g.id? handle = some source then some (targets.filterMap g.id?) else none
  | _ => none

def lastTargets? (g : FlowGraph) (ds : List Decision) (source : NodeId) : Option (List NodeId) :=
  (ds.filterMap (targetsOf? g source)).getLast?

variable {g : FlowGraph} {ds : List Decision} {source target : NodeId} {targets : List NodeId}

theorem getElem?_replacements_apply (g : FlowGraph) (s : Selection) (d : Decision)
    (source : NodeId) : (apply g s d).replacements[source]? =
      (targetsOf? g source d <|> s.replacements[source]?) := by
  cases d with
  | retarget handle targets =>
    rw [apply, targetsOf?]
    cases hid : g.id? handle with
    | none => rfl
    | some id =>
      simp only [replace, Std.ExtTreeMap.getElem?_insert, Option.some.injEq]
      by_cases heq : id = source <;> simp [heq]
  | _ =>
    rw [replacements_apply (by simp)]
    rfl

/-- Of several replacements for a source the last one counts. -/
theorem getElem?_replacements (g : FlowGraph) (ds : List Decision) (source : NodeId) :
    (ofDecisions g ds).replacements[source]? = lastTargets? g ds source := by
  induction ds using List.reverseRecOn with
  | nil => exact Std.ExtTreeMap.getElem?_empty
  | append_singleton ds d ih =>
    rw [ofDecisions_concat, getElem?_replacements_apply, ih, lastTargets?, lastTargets?,
      List.filterMap_append, List.getLast?_append]
    cases hd : targetsOf? g source d <;> simp [hd]

theorem mem_lt_of_lastTargets? (hknown : ∀ handle id, g.id? handle = some id → id < g.size)
    (h : lastTargets? g ds source = some targets) (htarget : target ∈ targets) :
    target < g.size := by
  obtain ⟨d, -, hd⟩ := List.mem_filterMap.mp (List.mem_of_getLast? h)
  cases d with
  | retarget handle handles =>
    rw [targetsOf?] at hd
    split at hd
    next =>
      cases hd
      obtain ⟨handle', -, hid⟩ := List.mem_filterMap.mp htarget
      exact hknown handle' target hid
    next => cases hd
  | _ => cases hd

/-! ## One replacement after the other -/

section Replacing

variable {ps : List (NodeId × List NodeId)} {w : Revised} {id : NodeId}

theorem current_replaceAt (g : FlowGraph) (w : Revised) (source : NodeId) (targets : List NodeId)
    (id : NodeId) : current g (replaceAt g w source targets) id =
      if source = id then (current g w source).map (·.retarget (targets.filterMap (current g w)))
      else current g w id := by
  unfold replaceAt
  by_cases hid : source = id
  · subst hid
    cases hsource : current g w source with
    | none => simp [hsource]
    | some n => simp [current_insert]
  · cases hsource : current g w source with
    | none => simp [hid]
    | some n => simp [current_insert, hid]

theorem current_foldl_replaceAt_of_not_mem (h : id ∉ ps.map Prod.fst) :
    current g (ps.foldl (fun w p ↦ replaceAt g w p.1 p.2) w) id = current g w id := by
  induction ps generalizing w with
  | nil => rfl
  | cons p ps ih =>
    rw [List.map_cons, List.mem_cons, not_or] at h
    rw [List.foldl_cons, ih h.2, current_replaceAt, if_neg (Ne.symm h.1)]

/-- A source reads its targets as they are in the end where they come before it, and else as they
were at the start. -/
theorem current_foldl_replaceAt (hsorted : ps.Pairwise fun p q ↦ p.1 < q.1)
    (h : (source, targets) ∈ ps) :
    current g (ps.foldl (fun w p ↦ replaceAt g w p.1 p.2) w) source =
      (current g w source).map (·.retarget (targets.filterMap fun t ↦
        if t < source then current g (ps.foldl (fun w p ↦ replaceAt g w p.1 p.2) w) t
        else current g w t)) := by
  obtain ⟨before, after, rfl⟩ := List.append_of_mem h
  obtain ⟨-, hafter, hbefore⟩ := List.pairwise_append.mp hsorted
  rw [List.pairwise_cons] at hafter
  have hnotBefore : ∀ t, ¬ t < source → t ∉ before.map Prod.fst := by
    intro t ht hmem
    obtain ⟨p, hp, rfl⟩ := List.mem_map.mp hmem
    exact ht (hbefore p hp _ List.mem_cons_self)
  have hnotAfter : ∀ t, t ≤ source → t ∉ after.map Prod.fst := by
    intro t ht hmem
    obtain ⟨p, hp, rfl⟩ := List.mem_map.mp hmem
    exact Nat.not_le.mpr (hafter.1 p hp) ht
  rw [List.foldl_append, List.foldl_cons]
  generalize hw : before.foldl (fun w p ↦ replaceAt g w p.1 p.2) w = w'
  have hread : ∀ t, (if t < source then
      current g (after.foldl (fun w p ↦ replaceAt g w p.1 p.2) (replaceAt g w' source targets)) t
      else current g w t) = current g w' t := by
    intro t
    split
    next hlt =>
      rw [current_foldl_replaceAt_of_not_mem (hnotAfter t (Nat.le_of_lt hlt)), current_replaceAt,
        if_neg (Nat.ne_of_gt hlt)]
    next hge => rw [← hw, current_foldl_replaceAt_of_not_mem (hnotBefore t hge)]
  simp only [hread]
  rw [current_foldl_replaceAt_of_not_mem (hnotAfter source (Nat.le_refl source)),
    current_replaceAt, if_pos rfl, ← hw,
    current_foldl_replaceAt_of_not_mem (hnotBefore source (Nat.lt_irrefl source))]

end Replacing

/-! ## Targets that are all known -/

section Known

variable {f : NodeId → Option Node} {P : NodeId → Prop}

theorem filterMap_eq_map_getD (h : ∀ t ∈ targets, ∃ n, f t = some n) :
    targets.filterMap f = targets.map fun t ↦ (f t).getD {} := by
  refine List.filterMap_eq_map_iff_forall_eq_some.mpr fun t ht ↦ ?_
  obtain ⟨n, hn⟩ := h t ht
  rw [hn, Option.getD_some]

theorem mem_covered_retarget_filterMap
    (h : ∀ t ∈ targets, ∃ m, f t = some m ∧ (m.isCovered = true ↔ P t)) (n : Node) {k : Nat} :
    k ∈ (n.retarget (targets.filterMap f)).covered ↔ ∃ t, targets[k]? = some t ∧ P t := by
  rw [filterMap_eq_map_getD fun t ht ↦ (h t ht).imp fun _ ↦ And.left, Node.mem_covered_retarget]
  simp only [List.getElem?_map, Option.map_eq_some_iff]
  constructor
  · rintro ⟨_, ⟨t, ht, rfl⟩, hcovered⟩
    obtain ⟨m, hm, hP⟩ := h t (List.mem_of_getElem? ht)
    rw [hm, Option.getD_some] at hcovered
    exact ⟨t, ht, hP.mp hcovered⟩
  · rintro ⟨t, ht, hP⟩
    obtain ⟨m, hm, hP'⟩ := h t (List.mem_of_getElem? ht)
    refine ⟨m, ⟨t, ht, ?_⟩, hP'.mpr hP⟩
    rw [hm, Option.getD_some]

theorem isCovered_retarget_filterMap
    (h : ∀ t ∈ targets, ∃ m, f t = some m ∧ (m.isCovered = true ↔ P t)) (n : Node) :
    (n.retarget (targets.filterMap f)).isCovered = true ↔ ∃ t ∈ targets, P t := by
  rw [Node.isCovered_iff]
  simp only [mem_covered_retarget_filterMap h]
  constructor
  · rintro ⟨k, t, ht, hP⟩
    exact ⟨t, List.mem_of_getElem? ht, hP⟩
  · rintro ⟨t, ht, hP⟩
    obtain ⟨k, hk⟩ := List.getElem?_of_mem ht
    exact ⟨k, t, hk, hP⟩

end Known

/-! ## What a source sees -/

/-- To the source a target looks covered: by the graph, or by its own targets if it comes before the
source and has some. -/
inductive Sees (g : FlowGraph) (ds : List Decision) : NodeId → NodeId → Prop
  | graph {source target : NodeId} : (target < source → lastTargets? g ds target = none) →
      ClassCovered g ds target → Sees g ds source target
  | targets {source target next : NodeId} {targets : List NodeId} : target < source →
      lastTargets? g ds target = some targets → next ∈ targets → Sees g ds target next →
      Sees g ds source target

theorem sees_iff_classCovered (h : target < source → lastTargets? g ds target = none) :
    Sees g ds source target ↔ ClassCovered g ds target := by
  constructor
  · intro hsees
    cases hsees with
    | graph _ hcovered => exact hcovered
    | targets hlt htargets => cases (h hlt).symm.trans htargets
  · exact .graph h

theorem sees_iff_exists (hlt : target < source) (h : lastTargets? g ds target = some targets) :
    Sees g ds source target ↔ ∃ next ∈ targets, Sees g ds target next := by
  constructor
  · intro hsees
    cases hsees with
    | graph hnone _ => cases (hnone hlt).symm.trans h
    | targets _ htargets hnext hsees =>
      cases htargets.symm.trans h
      exact ⟨_, hnext, hsees⟩
  · rintro ⟨next, hnext, hsees⟩
    exact .targets hlt h hnext hsees

/-- How the source finds the instruction `id`. -/
def view (g : FlowGraph) (s : Selection) (source id : NodeId) : Option Node :=
  if id < source then current g (s.revised g) id else current g (s.merged g) id

theorem current_revised_of_none (h : lastTargets? g ds source = none) :
    current g ((ofDecisions g ds).revised g) source =
      current g ((ofDecisions g ds).merged g) source := by
  rw [revised_eq]
  refine current_foldl_replaceAt_of_not_mem fun hmem ↦ ?_
  obtain ⟨p, hp, rfl⟩ := List.mem_map.mp hmem
  have hget := Std.ExtTreeMap.mem_toList_iff_getElem?_eq_some.mp hp
  rw [getElem?_replacements, h] at hget
  cases hget

theorem current_revised_of_some (h : lastTargets? g ds source = some targets) :
    current g ((ofDecisions g ds).revised g) source =
      (current g ((ofDecisions g ds).merged g) source).map
        (·.retarget (targets.filterMap ((ofDecisions g ds).view g source))) := by
  have hmem : (source, targets) ∈ (ofDecisions g ds).replacements.toList :=
    Std.ExtTreeMap.mem_toList_iff_getElem?_eq_some.mpr ((getElem?_replacements g ds source).trans h)
  have hsorted : (ofDecisions g ds).replacements.toList.Pairwise fun p q ↦ p.1 < q.1 :=
    Std.ExtTreeMap.ordered_keys_toList.imp fun {p q} hpq ↦ Nat.compare_eq_lt.mp hpq
  rw [revised_eq, current_foldl_replaceAt hsorted hmem, ← revised_eq]
  rfl

theorem current_merged_ofDecisions (hknown : ∀ handle id, g.id? handle = some id → id < g.size)
    (ds : List Decision) {id : NodeId} (hid : id < g.size) :
    ∃ n, current g ((ofDecisions g ds).merged g) id = some n ∧
      (n.isCovered = true ↔ ClassCovered g ds id) := by
  have hrooted := rooted_ofDecisions g ds
  obtain ⟨n, hn⟩ : ∃ n, g.node? ((ofDecisions g ds).root id) = some n :=
    ⟨_, Array.getElem?_eq_getElem (root_lt_size hknown hid)⟩
  refine ⟨_, hrooted.current_merged rfl hn, ?_⟩
  rw [isCovered_unite (hrooted.root_root id) hn]
  refine exists_congr fun other ↦ exists_congr fun m ↦ and_congr_left fun _ ↦ ?_
  exact ⟨fun h ↦ h.trans (sameClass_root id).symm, fun h ↦ h.trans (sameClass_root id)⟩

/-- By induction on the source: the targets it finds rewritten come before it. -/
theorem view_ofDecisions (hknown : ∀ handle id, g.id? handle = some id → id < g.size)
    (source : NodeId) {id : NodeId} (hid : id < g.size) :
    ∃ n, (ofDecisions g ds).view g source id = some n ∧
      (n.isCovered = true ↔ Sees g ds source id) := by
  induction source using Nat.strong_induction_on generalizing id with
  | _ source ih =>
    have hmerged := current_merged_ofDecisions hknown ds hid
    by_cases hlt : id < source
    · rw [view, if_pos hlt]
      cases htargets : lastTargets? g ds id with
      | none =>
        rw [current_revised_of_none htargets, sees_iff_classCovered fun _ ↦ htargets]
        exact hmerged
      | some targets =>
        obtain ⟨n, hn, -⟩ := hmerged
        have hview : ∀ next ∈ targets, ∃ m, (ofDecisions g ds).view g id next = some m ∧
            (m.isCovered = true ↔ Sees g ds id next) :=
          fun next hnext ↦ ih id hlt (mem_lt_of_lastTargets? hknown htargets hnext)
        refine ⟨_, by rw [current_revised_of_some htargets, hn, Option.map_some], ?_⟩
        rw [sees_iff_exists hlt htargets]
        exact isCovered_retarget_filterMap hview n
    · rw [view, if_neg hlt, sees_iff_classCovered fun h ↦ absurd h hlt]
      exact hmerged

/-- What is reported for an instruction of which the branches were replaced. A branch meets the
promise, to be executed if its target is covered in the graph, exactly if the target is not read as
rewritten or the rewriting did not change whether it is covered. -/
structure CountsTargets (g : FlowGraph) (ds : List Decision) (source : NodeId)
    (targets : List NodeId) (n : Node) : Prop where
  branches : n.branches = min targets.length (countBound - 1)
  covered : ∀ k, k ∈ n.covered ↔ ∃ target, targets[k]? = some target ∧ Sees g ds source target
  promised : ∀ k target, targets[k]? = some target →
    ((k ∈ n.covered ↔ ClassCovered g ds target) ↔
      ∀ nexts, target < source → lastTargets? g ds target = some nexts →
        ((∃ next ∈ nexts, Sees g ds target next) ↔ ClassCovered g ds target))

theorem sees_iff_classCovered_iff : (Sees g ds source target ↔ ClassCovered g ds target) ↔
    ∀ nexts, target < source → lastTargets? g ds target = some nexts →
      ((∃ next ∈ nexts, Sees g ds target next) ↔ ClassCovered g ds target) := by
  constructor
  · intro h nexts hlt hnexts
    rwa [← sees_iff_exists hlt hnexts]
  · intro h
    by_cases hlt : target < source
    · cases hnexts : lastTargets? g ds target with
      | none => exact sees_iff_classCovered fun _ ↦ hnexts
      | some nexts =>
        rw [sees_iff_exists hlt hnexts]
        exact h nexts hlt hnexts
    · exact sees_iff_classCovered fun hlt' ↦ absurd hlt' hlt

theorem countsTargets (hknown : ∀ handle id, g.id? handle = some id → id < g.size)
    (h : lastTargets? g ds source = some targets) {n : Node}
    (hn : current g ((ofDecisions g ds).revised g) source = some n) :
    CountsTargets g ds source targets n := by
  have hview : ∀ target ∈ targets, ∃ m, (ofDecisions g ds).view g source target = some m ∧
      (m.isCovered = true ↔ Sees g ds source target) :=
    fun target htarget ↦ view_ofDecisions hknown source (mem_lt_of_lastTargets? hknown h htarget)
  rw [current_revised_of_some h] at hn
  obtain ⟨m, -, rfl⟩ := Option.map_eq_some_iff.mp hn
  have hcovered := fun k ↦ mem_covered_retarget_filterMap hview m (k := k)
  refine ⟨?_, hcovered, fun k target htarget ↦ ?_⟩
  · rw [Node.retarget, filterMap_eq_map_getD fun t ht ↦ (hview t ht).imp fun _ ↦ And.left,
      List.length_map]
  · rw [hcovered k, htarget]
    simpa using sees_iff_classCovered_iff

end Selection

/-- The instructions reported, one for each class with a representative that is not skipped; those
of which the branches were replaced have the last targets that were given. -/
theorem FlowGraph.reported_counts_targets {probes : Option (Array Bool)} {es : List Event}
    {g : FlowGraph} (h : FlowGraph.ofEvents probes es = .ok g) (ds : List Decision) :
    ∃ reps, reps.Pairwise (· < ·) ∧
      (∀ id, id ∈ reps ↔ (∃ a < g.size, (Selection.ofDecisions g ds).root a = id) ∧
        ¬ Selection.Ignored g ds id) ∧
      List.Forall₂ (fun source n ↦ ∀ targets, Selection.lastTargets? g ds source = some targets →
          Selection.CountsTargets g ds source targets n)
        reps ((Selection.ofDecisions g ds).reported g) := by
  have hknown : ∀ handle id, g.id? handle = some id → id < g.size := fun _ _ ↦ g.lt_size_of_id? h
  refine ⟨_, Selection.pairwise_counted g (Selection.ofDecisions g ds),
    fun id ↦ Selection.mem_counted_ofDecisions_iff hknown, ?_⟩
  refine (Selection.forall₂_reported g _).imp fun source n hn targets htargets ↦ ?_
  exact Selection.countsTargets hknown htargets hn

/-- Three instructions of which none leads to another; a probe watches the first. -/
def islands : List Event :=
  [.instruction ⟨0⟩ none, .probe 0 0, .noSuccessor, .instruction ⟨1⟩ none, .noSuccessor,
    .instruction ⟨2⟩ none, .endMethod]

/-- The second instruction gets the first one as a target, which has a target of its own. -/
def chained : List Decision := [.retarget ⟨0⟩ [⟨2⟩], .retarget ⟨1⟩ [⟨0⟩, ⟨2⟩]]

theorem FlowGraph.reported_counts_targets_chained :
    ∃ g reps, FlowGraph.ofEvents (some #[true]) islands = .ok g ∧
      (∀ id, id ∈ reps ↔ (∃ a < g.size, (Selection.ofDecisions g chained).root a = id) ∧
        ¬ Selection.Ignored g chained id) ∧
      List.Forall₂ (fun source n ↦
          ∀ targets, Selection.lastTargets? g chained source = some targets →
            Selection.CountsTargets g chained source targets n)
        reps ((Selection.ofDecisions g chained).reported g) := by
  obtain ⟨g, hg⟩ : ∃ g, FlowGraph.ofEvents (some #[true]) islands = .ok g :=
    exists_eq_ok (by decide +kernel)
  obtain ⟨reps, -, hreps, hreported⟩ := FlowGraph.reported_counts_targets hg chained
  exact ⟨g, reps, hg, hreps, hreported⟩

/-- The first target of the second instruction is covered, but the branch to it counts as missed. -/
theorem FlowGraph.reported_misses_target :
    ∃ g n m, FlowGraph.ofEvents (some #[true]) islands = .ok g ∧
      (Selection.ofDecisions g chained).counted g = [0, 1, 2] ∧
      ((Selection.ofDecisions g chained).reported g)[1]? = some n ∧
      Selection.lastTargets? g chained 1 = some [0, 2] ∧
      g.node? 0 = some m ∧ m.isCovered = true ∧ n.branches = 2 ∧ 0 ∉ n.covered := by
  obtain ⟨g, hg⟩ : ∃ g, FlowGraph.ofEvents (some #[true]) islands = .ok g :=
    exists_eq_ok (by decide +kernel)
  have hrun : (FlowGraph.ofEvents (some #[true]) islands).toOption.any (fun g ↦
      decide ((Selection.ofDecisions g chained).counted g = [0, 1, 2] ∧
        Selection.lastTargets? g chained 1 = some [0, 2]) &&
      (((Selection.ofDecisions g chained).reported g)[1]?).any (fun n ↦
        decide (n.branches = 2 ∧ 0 ∉ n.covered)) && (g.node? 0).any Node.isCovered) = true := by
    decide +kernel
  simp only [hg, Except.toOption, Option.any_some, Bool.and_eq_true, decide_eq_true_eq,
    Option.any_eq_true] at hrun
  obtain ⟨⟨⟨hcounted, htargets⟩, n, hn, hbranches, hcovered⟩, m, hm, hm'⟩ := hrun
  exact ⟨g, n, m, hg, hcounted, hn, htargets, hm, hm', hbranches, hcovered⟩

end ProbeCoverage
