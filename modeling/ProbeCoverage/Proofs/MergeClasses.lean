import ProbeCoverage.Proofs.BuiltInFilters
import ProbeCoverage.Proofs.Description
import ProbeCoverage.Proofs.MergeLinks
import ProbeCoverage.Proofs.Reachability
import ProbeCoverage.Proofs.Totals

/-!
# Merged instructions count once

Of each class of merged instructions one is counted, unless its place is skipped: it stands on its
own line, is covered if any of the class is, and takes what branches it has from the last of the
others.
-/

namespace ProbeCoverage

/-! ## Merging one instruction after the other -/

namespace Node

variable {ms : List Node} {n : Node} {k : Nat}

theorem line_foldl_merge (ms : List Node) (n : Node) : (ms.foldl merge n).line = n.line := by
  induction ms generalizing n with
  | nil => rfl
  | cons m ms ih => exact ih (n.merge m)

theorem mem_covered_foldl_merge :
    k ∈ (ms.foldl merge n).covered ↔ k ∈ n.covered ∨ ∃ m ∈ ms, k ∈ m.covered := by
  induction ms generalizing n with
  | nil => simp
  | cons m ms ih =>
    rw [List.foldl_cons, ih, merge, BranchSet.mem_union]
    simp [or_assoc]

/-- The branches are counted as those of the last instruction that was merged. -/
theorem branches_foldl_merge_concat (ms : List Node) (n m : Node) :
    ((ms ++ [m]).foldl merge n).branches = m.branches := by
  rw [List.foldl_append]
  rfl

theorem branchCounter_of_size_lt (h : n.covered.size < countBound) :
    n.branchCounter =
      if n.branches < 2 then ∅ else ⟨n.branches - n.covered.size, n.covered.size⟩ := by
  have hmin : min n.covered.size (countBound - 1) = n.covered.size := by omega
  rw [branchCounter, hmin]

end Node

namespace Selection

variable {g : FlowGraph} {s : Selection} {ds : List Decision} {w : Revised} {id rep : NodeId}
  {n : Node}

theorem current_empty (g : FlowGraph) (id : NodeId) : current g ∅ id = g.node? id := by
  rw [current, Std.ExtTreeMap.getElem?_empty]
  rfl

theorem current_insert (g : FlowGraph) (w : Revised) (rep : NodeId) (n : Node) (id : NodeId) :
    current g (w.insert rep n) id = if rep = id then some n else current g w id := by
  rw [current, current, Std.ExtTreeMap.getElem?_insert]
  by_cases h : rep = id <;> simp [h]

/-- The instructions merged into `rep`, in the order of the code. -/
def followers (s : Selection) (rep : NodeId) : List NodeId := s.links.keys.filter (s.root · = rep)

/-- The instruction `n` in the place `rep`, with all that are merged into it. -/
def unite (g : FlowGraph) (s : Selection) (rep : NodeId) (n : Node) : Node :=
  ((s.followers rep).filterMap g.node?).foldl Node.merge n

theorem Rooted.mem_keys_iff (h : s.Rooted) : id ∈ s.links.keys ↔ s.root id ≠ id := by
  rw [Std.ExtTreeMap.mem_keys, Std.ExtTreeMap.mem_iff_isSome_getElem?, Ne, h.root_eq_self_iff,
    ← Option.isNone_iff_eq_none]
  simp

theorem Rooted.mem_followers_iff (h : s.Rooted) :
    id ∈ s.followers rep ↔ s.root id = rep ∧ id ≠ rep := by
  rw [followers, List.mem_filter, h.mem_keys_iff, decide_eq_true_eq]
  constructor
  · rintro ⟨hne, rfl⟩
    exact ⟨rfl, Ne.symm hne⟩
  · rintro ⟨rfl, hne⟩
    exact ⟨Ne.symm hne, rfl⟩

theorem pairwise_followers (s : Selection) (rep : NodeId) :
    (s.followers rep).Pairwise (· < ·) := by
  refine List.Pairwise.filter _ (Std.ExtTreeMap.ordered_keys.imp fun {a b} hab ↦ ?_)
  exact Nat.compare_eq_lt.mp hab

/-! ## The instructions after the merges -/

/-- Each instruction that has a link is merged where its walk ends, in its turn. -/
theorem Rooted.current_foldl_combine (h : s.Rooted) (g : FlowGraph) {ks : List NodeId}
    (hks : ∀ k ∈ ks, s.root k ≠ k) (id : NodeId) :
    current g (ks.foldl (combine g s) ∅) id =
      (g.node? id).map (((ks.filter (s.root · = id)).filterMap g.node?).foldl Node.merge) := by
  induction ks using List.reverseRecOn generalizing id with
  | nil =>
    rw [List.foldl_nil, current_empty]
    exact Option.map_id'.symm
  | append_singleton ks k ih =>
    have hks' : ∀ j ∈ ks, s.root j ≠ j := fun j hj ↦ hks j (List.mem_append_left _ hj)
    have hk : s.root k ≠ k := hks k (List.mem_append_right _ (List.mem_singleton_self k))
    -- nothing is merged into `k`, as no walk ends there
    have hown : current g (ks.foldl (combine g s) ∅) k = g.node? k := by
      have hnone : ks.filter (s.root · = k) = [] := by
        refine List.filter_eq_nil_iff.mpr fun j _ hj ↦ hk ?_
        rw [← of_decide_eq_true hj]
        exact h.root_root j
      rw [ih hks', hnone]
      exact Option.map_id'
    rw [List.foldl_append, List.foldl_cons, List.foldl_nil, List.filter_append,
      List.filterMap_append, combine, hown, ih hks' (s.root k)]
    generalize hw : ks.foldl (combine g s) ∅ = w at ih ⊢
    by_cases hid : s.root k = id
    · subst hid
      cases hrep : g.node? (s.root k) with
      | none => simp [ih hks', hrep]
      | some n =>
        cases hnode : g.node? k with
        | none => simp [ih hks', hrep, hnode]
        | some m => simp [current_insert, hnode]
    · cases hrep : g.node? (s.root k) with
      | none => simp [ih hks', hid]
      | some n =>
        cases hnode : g.node? k with
        | none => simp [ih hks', hid]
        | some m => simp [current_insert, ih hks', hid]

/-- Copying back changes no instruction that others were merged into. -/
theorem Rooted.current_foldl_copyBack (h : s.Rooted) (g : FlowGraph) (w : Revised)
    {ks : List NodeId} (hks : ∀ k ∈ ks, s.root k ≠ k) (id : NodeId) :
    current g (ks.foldl (copyBack g s) w) id =
      if id ∈ ks then current g w (s.root id) <|> current g w id else current g w id := by
  induction ks using List.reverseRecOn generalizing id with
  | nil => rfl
  | append_singleton ks k ih =>
    have hks' : ∀ j ∈ ks, s.root j ≠ j := fun j hj ↦ hks j (List.mem_append_left _ hj)
    have hroot : s.root k ∉ ks := fun hmem ↦ hks' _ hmem (h.root_root k)
    rw [List.foldl_append, List.foldl_cons, List.foldl_nil, copyBack, ih hks', if_neg hroot]
    by_cases hid : k = id
    · subst hid
      cases hrep : current g w (s.root k) with
      | none => simp [ih hks', hrep]
      | some n => simp [current_insert]
    · have hmem : id ∈ ks ++ [k] ↔ id ∈ ks := by simp [Ne.symm hid]
      simp only [hmem]
      cases hrep : current g w (s.root k) with
      | none => exact ih hks' id
      | some n =>
        dsimp only
        rw [current_insert, if_neg hid]
        exact ih hks' id

/-- What the merges leave, before branches are replaced. -/
def merged (g : FlowGraph) (s : Selection) : Revised :=
  s.links.keys.foldl (copyBack g s) (s.links.keys.foldl (combine g s) ∅)

theorem revised_eq (g : FlowGraph) (s : Selection) : s.revised g =
    s.replacements.toList.foldl (fun w p ↦ replaceAt g w p.1 p.2) (s.merged g) := rfl

/-- After the merges every instruction is as the one that stands for it, with the whole class merged
into that. -/
theorem Rooted.current_merged (h : s.Rooted) (hroot : s.root id = rep)
    (hn : g.node? rep = some n) : current g (s.merged g) id = some (s.unite g rep n) := by
  subst hroot
  have hks : ∀ k ∈ s.links.keys, s.root k ≠ k := fun k ↦ h.mem_keys_iff.mp
  have hcombined : current g (s.links.keys.foldl (combine g s) ∅) (s.root id) =
      some (s.unite g (s.root id) n) := by
    rw [h.current_foldl_combine g hks, hn]
    rfl
  rw [merged, h.current_foldl_copyBack g _ hks, hcombined]
  split
  next => rfl
  next hmem =>
    have hself : s.root id = id := by
      by_contra hne
      exact hmem (h.mem_keys_iff.mpr hne)
    rw [hself] at hcombined ⊢
    exact hcombined

/-! ## What is reported -/

/-- Places that a decision skips. -/
def Ignored (g : FlowGraph) (ds : List Decision) (id : NodeId) : Prop :=
  ∃ first last a b, .ignore first last ∈ ds ∧ g.id? first = some a ∧ g.id? last = some b ∧
    a ≤ id ∧ id ≤ b

theorem ignored_apply {d : Decision} {p : NodeId × NodeId} (h : p ∈ (apply g s d).ignored) :
    p ∈ s.ignored ∨ ∃ first last, d = .ignore first last ∧ g.id? first = some p.1 ∧
      g.id? last = some p.2 := by
  cases d with
  | ignore first last =>
    rw [apply] at h
    split at h
    next hfirst hlast =>
      rcases List.mem_cons.mp h with rfl | h
      · exact Or.inr ⟨first, last, rfl, hfirst, hlast⟩
      · exact Or.inl h
    next => exact Or.inl h
  | merge a b =>
    rw [apply] at h
    split at h
    next =>
      rw [merge] at h
      split at h <;> exact Or.inl h
    next => exact Or.inl h
  | retarget source targets =>
    rw [apply] at h
    split at h <;> exact Or.inl h

theorem exists_ignore_of_mem_ignored {p : NodeId × NodeId}
    (h : p ∈ (ofDecisions g ds).ignored) : ∃ first last, .ignore first last ∈ ds ∧
      g.id? first = some p.1 ∧ g.id? last = some p.2 := by
  induction ds using List.reverseRecOn with
  | nil => cases h
  | append_singleton ds d ih =>
    rw [ofDecisions_concat] at h
    rcases ignored_apply h with h | ⟨first, last, rfl, hfirst, hlast⟩
    · obtain ⟨first, last, hmem, hends⟩ := ih h
      exact ⟨first, last, List.mem_append_left _ hmem, hends⟩
    · exact ⟨first, last, List.mem_append_right _ List.mem_cons_self, hfirst, hlast⟩

theorem skips_ofDecisions_iff : (ofDecisions g ds).skips id = true ↔ Ignored g ds id := by
  constructor
  · intro h
    obtain ⟨p, hp, hle⟩ := List.any_eq_true.mp h
    obtain ⟨first, last, hmem, hfirst, hlast⟩ := exists_ignore_of_mem_ignored hp
    rw [Bool.and_eq_true, decide_eq_true_eq, decide_eq_true_eq] at hle
    exact ⟨first, last, p.1, p.2, hmem, hfirst, hlast, hle⟩
  · rintro ⟨first, last, a, b, hmem, hfirst, hlast, ha, hb⟩
    exact skips_ofDecisions hmem hfirst hlast ha hb

/-- The places that are reported: those neither skipped nor merged into another. -/
def counted (g : FlowGraph) (s : Selection) : List NodeId :=
  (List.range g.size).filter fun id ↦ !(s.skips id || s.links.contains id)

theorem Rooted.mem_counted_iff (h : s.Rooted) :
    id ∈ s.counted g ↔ id < g.size ∧ s.root id = id ∧ ¬ s.skips id = true := by
  have hlink : s.links.contains id = false ↔ s.root id = id := by
    rw [h.root_eq_self_iff, ← Bool.not_eq_true, Std.ExtTreeMap.contains_iff_mem,
      Std.ExtTreeMap.mem_iff_isSome_getElem?, Bool.not_eq_true, Option.isSome_eq_false_iff,
      Option.isNone_iff_eq_none]
  rw [counted, List.mem_filter, List.mem_range, Bool.not_eq_true', Bool.or_eq_false_iff, hlink,
    Bool.not_eq_true, and_comm (a := s.root id = id)]

theorem pairwise_counted (g : FlowGraph) (s : Selection) : (s.counted g).Pairwise (· < ·) :=
  List.pairwise_lt_range.filter _

/-- Reported is what has come to stand in these places. -/
theorem forall₂_reported (g : FlowGraph) (s : Selection) :
    List.Forall₂ (fun id n ↦ current g (s.revised g) id = some n) (s.counted g) (s.reported g) := by
  have hplaces : List.range g.size = g.nodes.toList.zipIdx.map Prod.snd := by
    rw [List.zipIdx_map_snd, List.range_eq_range', Array.length_toList, FlowGraph.size]
  rw [counted, hplaces, List.filter_map, List.forall₂_map_left_iff, ← List.filterMap_eq_filter,
    reported]
  refine List.rel_filterMap (R := fun p q ↦ p = q ∧ g.node? p.2 = some p.1) ?_
    (List.forall₂_same.mpr fun p hp ↦ ⟨rfl, ?_⟩)
  · rintro ⟨n, id⟩ _ ⟨rfl, hn⟩
    have hcurrent : current g (s.revised g) id = some ((s.revised g).getD id n) := by
      rw [current, Std.ExtTreeMap.getD_eq_getD_getElem?, hn]
      cases (s.revised g)[id]? <;> rfl
    by_cases hskip : (s.skips id || s.links.contains id) = true
    · simp only [Option.guard, Function.comp_apply, hskip, if_true, Bool.not_true]
      exact .none
    · simp only [Option.guard, Function.comp_apply, hskip, if_true, Bool.not_false]
      exact .some hcurrent
  · have hget := List.mk_mem_zipIdx_iff_getElem?.mp hp
    rwa [Array.getElem?_toList] at hget

end Selection

/-! ## Graphs of streams -/

section Graphs

variable {probes : Option (Array Bool)} {es : List Event} {g : FlowGraph}

theorem FlowGraph.lt_size_of_id? (h : FlowGraph.ofEvents probes es = .ok g) {handle : Handle}
    {id : NodeId} (hid : g.id? handle = some id) : id < g.size := by
  rw [FlowGraph.size, size_ofEvents h, Stream.count_cursor]
  exact (List.getElem?_eq_some_iff.mp ((id?_ofEvents h).mp hid)).1

theorem Stream.branch_le_maxBranch (h : Recording.Admitted { probes } es) {e : Event} (he : e ∈ es)
    {branch : Nat} (hbranch : branch? e = some branch) : branch ≤ maxBranch := by
  obtain ⟨before, after, rfl⟩ := List.append_of_mem he
  obtain ⟨-, hadm⟩ := admitted_split h
  cases e with
  | jump target b =>
    cases hbranch
    obtain ⟨-, -, hle⟩ := hadm
    exact hle
  | probe p b =>
    cases hbranch
    obtain ⟨-, -, hle, -⟩ := hadm
    exact hle
  | _ => cases hbranch

theorem Stream.index_le_maxBranch (h : Recording.Admitted { probes } es) {b : Branch}
    (hb : Executed (· ∈ Stream.edges es) (Stream.Fired probes es) b) : b.index ≤ maxBranch := by
  cases hb with
  | fired hfired =>
    obtain ⟨i, hmem, -⟩ := hfired
    obtain ⟨⟨c, e⟩, hsite, he⟩ := List.mem_filterMap.mp hmem
    obtain ⟨before, after, rfl, rfl⟩ := Stream.mem_sites_iff.mp hsite
    cases e with
    | probe p b =>
      obtain ⟨id, -, hb⟩ := Option.map_eq_some_iff.mp he
      cases hb
      exact branch_le_maxBranch h (List.mem_append_right _ List.mem_cons_self) rfl
    | _ => cases he
  | @edge e i he _ =>
    rcases List.mem_append.mp he with hfall | hjump
    · obtain ⟨⟨c, f⟩, -, hf⟩ := List.mem_filterMap.mp hfall
      cases f with
      | instruction handle signature =>
        obtain ⟨previous, -, rfl⟩ := Option.map_eq_some_iff.mp hf
        exact Nat.zero_le _
      | _ => cases hf
    · obtain ⟨j, hj, hedge⟩ := List.mem_filterMap.mp hjump
      obtain ⟨target, -, rfl⟩ := Option.map_eq_some_iff.mp hedge
      obtain ⟨before, after, rfl, -⟩ := Stream.mem_jumps_iff.mp hj
      exact branch_le_maxBranch h (List.mem_append_right _ List.mem_cons_self) rfl

theorem FlowGraph.le_maxBranch_of_covered (h : FlowGraph.ofEvents probes es = .ok g) {id : NodeId}
    {n : Node} (hn : g.node? id = some n) {k : Nat} (hk : k ∈ n.covered) : k ≤ maxBranch :=
  Stream.index_le_maxBranch (FlowGraph.ofEvents_eq_ok h).1
    (FlowGraph.executed_of_mem_covered h hn hk)

end Graphs

/-! ## Classes -/

namespace Selection

/-- The last instruction of a class besides `rep`, or `rep` if there is no other. -/
structure LastBeside (g : FlowGraph) (ds : List Decision) (rep last : NodeId) : Prop where
  mem : SameClass g ds last rep
  alone : last = rep → ∀ id, SameClass g ds id rep → id = rep
  max : ∀ id, SameClass g ds id rep → id ≠ rep → id ≤ last

/-- The instruction, or one merged with it, is covered in the graph. -/
def ClassCovered (g : FlowGraph) (ds : List Decision) (id : NodeId) : Prop :=
  ∃ other m, SameClass g ds other id ∧ g.node? other = some m ∧ m.isCovered = true

/-- What is counted for the class of `rep`. -/
structure CountsClass (g : FlowGraph) (ds : List Decision) (rep : NodeId) (n : Node) : Prop where
  line : ∃ m, g.node? rep = some m ∧ n.line = m.line
  isCovered : n.isCovered = true ↔ ClassCovered g ds rep
  covered : ∀ k, k ∈ n.covered ↔
    ∃ id m, SameClass g ds id rep ∧ g.node? id = some m ∧ k ∈ m.covered
  branches : ∃ last m, LastBeside g ds rep last ∧ g.node? last = some m ∧ n.branches = m.branches
  counter : n.branchCounter =
    if n.branches < 2 then ∅ else ⟨n.branches - n.covered.size, n.covered.size⟩

variable {g : FlowGraph} {ds : List Decision} {id rep : NodeId} {n : Node}

theorem mem_followers_ofDecisions (hrep : (ofDecisions g ds).root rep = rep) :
    id ∈ (ofDecisions g ds).followers rep ↔ SameClass g ds id rep ∧ id ≠ rep := by
  rw [(rooted_ofDecisions g ds).mem_followers_iff, ← root_ofDecisions_eq_iff, hrep]

theorem mem_covered_unite (hrep : (ofDecisions g ds).root rep = rep) (hn : g.node? rep = some n)
    {k : Nat} : k ∈ ((ofDecisions g ds).unite g rep n).covered ↔
      ∃ id m, SameClass g ds id rep ∧ g.node? id = some m ∧ k ∈ m.covered := by
  rw [unite, Node.mem_covered_foldl_merge]
  simp only [List.mem_filterMap, mem_followers_ofDecisions hrep]
  constructor
  · rintro (hk | ⟨m, ⟨id, ⟨hclass, -⟩, hm⟩, hk⟩)
    · exact ⟨rep, n, SameClass.refl rep, hn, hk⟩
    · exact ⟨id, m, hclass, hm, hk⟩
  · rintro ⟨id, m, hclass, hm, hk⟩
    by_cases hid : id = rep
    · subst hid
      obtain rfl : n = m := Option.some.inj (hn.symm.trans hm)
      exact Or.inl hk
    · exact Or.inr ⟨m, ⟨id, ⟨hclass, hid⟩, hm⟩, hk⟩

theorem isCovered_unite (hrep : (ofDecisions g ds).root rep = rep) (hn : g.node? rep = some n) :
    ((ofDecisions g ds).unite g rep n).isCovered = true ↔ ClassCovered g ds rep := by
  simp only [ClassCovered, Node.isCovered_iff, mem_covered_unite hrep hn]
  constructor
  · rintro ⟨k, id, m, hclass, hm, hk⟩
    exact ⟨id, m, hclass, hm, k, hk⟩
  · rintro ⟨id, m, hclass, hm, k, hk⟩
    exact ⟨k, id, m, hclass, hm, hk⟩

theorem branches_unite (hrep : (ofDecisions g ds).root rep = rep) (hn : g.node? rep = some n)
    (hknown : ∀ handle id, g.id? handle = some id → id < g.size) :
    ∃ last m, LastBeside g ds rep last ∧ g.node? last = some m ∧
      ((ofDecisions g ds).unite g rep n).branches = m.branches := by
  have hmem : ∀ id, id ∈ (ofDecisions g ds).followers rep ↔ SameClass g ds id rep ∧ id ≠ rep :=
    fun _ ↦ mem_followers_ofDecisions hrep
  have hsorted := (ofDecisions g ds).pairwise_followers rep
  rw [unite]
  rcases List.eq_nil_or_concat' ((ofDecisions g ds).followers rep) with hnil | ⟨before, last, hlast⟩
  · have halone : ∀ id, SameClass g ds id rep → id = rep := by
      intro id hid
      by_contra hne
      have hfollows := (hmem id).mpr ⟨hid, hne⟩
      rw [hnil] at hfollows
      cases hfollows
    rw [hnil]
    exact ⟨rep, n, ⟨SameClass.refl rep, fun _ ↦ halone, fun id hid ↦ absurd (halone id hid)⟩, hn,
      rfl⟩
  · rw [hlast] at hmem hsorted ⊢
    obtain ⟨hclass, hne⟩ := (hmem last).mp (List.mem_append_right _ List.mem_cons_self)
    have hlt : last < g.size := ((hclass.eq_or_lt hknown).resolve_left hne).1
    have hm : g.node? last = some g.nodes[last] := Array.getElem?_eq_getElem hlt
    refine ⟨last, g.nodes[last], ⟨hclass, fun h ↦ absurd h hne, fun id hid hidne ↦ ?_⟩, hm, ?_⟩
    · rcases List.mem_append.mp ((hmem id).mpr ⟨hid, hidne⟩) with hbefore | hsame
      · apply Nat.le_of_lt
        exact (List.pairwise_append.mp hsorted).2.2 id hbefore last List.mem_cons_self
      · exact Nat.le_of_eq (List.mem_singleton.mp hsame)
    · rw [List.filterMap_append, List.filterMap_cons_some hm, List.filterMap_nil]
      exact Node.branches_foldl_merge_concat _ _ _

theorem countsClass_unite {probes : Option (Array Bool)} {es : List Event}
    (h : FlowGraph.ofEvents probes es = .ok g) (hrep : (ofDecisions g ds).root rep = rep)
    (hn : g.node? rep = some n) : CountsClass g ds rep ((ofDecisions g ds).unite g rep n) where
  line := ⟨n, hn, Node.line_foldl_merge _ _⟩
  isCovered := isCovered_unite hrep hn
  covered k := mem_covered_unite hrep hn
  branches := branches_unite hrep hn fun _ _ ↦ g.lt_size_of_id? h
  counter := by
    apply Node.branchCounter_of_size_lt
    refine Nat.lt_of_le_of_lt (BranchSet.size_le_of_forall_le (n := maxBranch) fun k hk ↦ ?_)
      (by decide)
    obtain ⟨id, m, -, hm, hk⟩ := (mem_covered_unite hrep hn).mp hk
    exact g.le_maxBranch_of_covered h hm hk

theorem replacements_apply {s : Selection} {d : Decision}
    (hd : ∀ source targets, d ≠ .retarget source targets) :
    (apply g s d).replacements = s.replacements := by
  cases d with
  | ignore first last =>
    rw [apply]
    split <;> rfl
  | merge a b =>
    rw [apply]
    split
    next =>
      rw [merge]
      split <;> rfl
    next => rfl
  | retarget source targets => exact absurd rfl (hd source targets)

/-- Without a replacement of branches, the merges are all that changes an instruction. -/
theorem revised_eq_merged (hds : ∀ source targets, .retarget source targets ∉ ds) :
    (ofDecisions g ds).revised g = (ofDecisions g ds).merged g := by
  have hnone : (ofDecisions g ds).replacements = ∅ := by
    induction ds using List.reverseRecOn with
    | nil => rfl
    | append_singleton ds d ih =>
      rw [ofDecisions_concat]
      refine (replacements_apply fun source targets hd ↦ ?_).trans
        (ih fun source targets hmem ↦ hds source targets (List.mem_append_left _ hmem))
      exact hds source targets (List.mem_append_right _ (hd ▸ List.mem_cons_self))
  rw [revised_eq, hnone]
  rfl

theorem root_lt_size (hknown : ∀ handle id, g.id? handle = some id → id < g.size)
    (hid : id < g.size) : (ofDecisions g ds).root id < g.size := by
  rcases (sameClass_root id).eq_or_lt hknown with heq | ⟨-, hlt⟩
  · rwa [← heq]
  · exact hlt

theorem mem_counted_ofDecisions_iff
    (hknown : ∀ handle id, g.id? handle = some id → id < g.size) :
    id ∈ (ofDecisions g ds).counted g ↔
      (∃ a < g.size, (ofDecisions g ds).root a = id) ∧ ¬ Ignored g ds id := by
  have hrooted := rooted_ofDecisions g ds
  rw [hrooted.mem_counted_iff, skips_ofDecisions_iff, ← and_assoc]
  refine and_congr_left fun _ ↦ ⟨fun ⟨hlt, hroot⟩ ↦ ⟨id, hlt, hroot⟩, ?_⟩
  rintro ⟨a, ha, rfl⟩
  exact ⟨root_lt_size hknown ha, hrooted.root_root a⟩

theorem forall₂_countsClass {probes : Option (Array Bool)} {es : List Event}
    (h : FlowGraph.ofEvents probes es = .ok g)
    (hds : ∀ source targets, .retarget source targets ∉ ds) :
    List.Forall₂ (CountsClass g ds) ((ofDecisions g ds).counted g)
      ((ofDecisions g ds).reported g) := by
  have hrooted := rooted_ofDecisions g ds
  have hreported := forall₂_reported g (ofDecisions g ds)
  rw [revised_eq_merged hds] at hreported
  refine List.Forall₂.imp ?_ ((List.forall₂_and_left ..).mpr
    ⟨fun id hid ↦ hrooted.mem_counted_iff.mp hid, hreported⟩)
  rintro id n ⟨⟨hlt, hroot, -⟩, hn⟩
  have hnode : g.node? id = some g.nodes[id] := Array.getElem?_eq_getElem hlt
  rw [hrooted.current_merged hroot hnode] at hn
  cases hn
  exact countsClass_unite h hroot hnode

/-- A new report takes the sum of what is reported, and the method itself. -/
theorem tally_eq_of_ne_overflow {s : Selection} {name desc : String} {signature : Option String}
    (h : s.tally g { name, desc, signature } ≠ .error .overflow) :
    s.tally g { name, desc, signature } =
      .ok (({ name, desc, signature } : MethodReport).plus
        (s.totals g + .ofMethod ((s.totals g).instructions.covered ≠ 0))) := by
  have hcounts := counts_tally (MethodReport.within_empty name desc signature 0) g s
  cases htally : s.tally g { name, desc, signature } with
  | error e =>
    rw [htally] at hcounts h
    exact absurd (congrArg Except.error hcounts.1) h
  | ok r =>
    have hcovered : (({ name, desc, signature } : MethodReport).plus
        (s.totals g)).instructions.covered = (s.totals g).instructions.covered := Nat.zero_add _
    rw [eq_plus_of_tally htally, MethodReport.plus_plus, hcovered]

end Selection

/-- Of each class of merged instructions one instruction is counted and nothing else, namely the one
that stands for the class, unless a decision skips its place. -/
theorem FlowGraph.tally_counts_classes {probes : Option (Array Bool)} {es : List Event}
    {g : FlowGraph} (h : FlowGraph.ofEvents probes es = .ok g) {ds : List Decision}
    (hds : ∀ source targets, .retarget source targets ∉ ds) (name desc : String)
    (signature : Option String)
    (hfits : (Selection.ofDecisions g ds).tally g { name, desc, signature } ≠ .error .overflow) :
    (∀ a b, (Selection.ofDecisions g ds).root a = (Selection.ofDecisions g ds).root b ↔
      Selection.SameClass g ds a b) ∧
    (∀ a, Selection.SameClass g ds a ((Selection.ofDecisions g ds).root a)) ∧
    ∃ reps items, reps.Pairwise (· < ·) ∧
      (∀ id, id ∈ reps ↔ (∃ a < g.size, (Selection.ofDecisions g ds).root a = id) ∧
        ¬ Selection.Ignored g ds id) ∧
      List.Forall₂ (Selection.CountsClass g ds) reps items ∧
      (Selection.ofDecisions g ds).tally g { name, desc, signature } =
        .ok (({ name, desc, signature } : MethodReport).plus ((items.map Node.totals).sum +
          .ofMethod ((items.map Node.totals).sum.instructions.covered ≠ 0))) := by
  have hknown : ∀ handle id, g.id? handle = some id → id < g.size := fun _ _ ↦ g.lt_size_of_id? h
  refine ⟨fun a b ↦ Selection.root_ofDecisions_eq_iff, Selection.sameClass_root,
    (Selection.ofDecisions g ds).counted g, (Selection.ofDecisions g ds).reported g,
    Selection.pairwise_counted g _, fun id ↦ ?_, ?_, ?_⟩
  · exact Selection.mem_counted_ofDecisions_iff hknown
  · exact Selection.forall₂_countsClass h hds
  · exact Selection.tally_eq_of_ne_overflow hfits

/-- Six instructions in a row, the third of which decides between the next one and the last. -/
def branching : List Event :=
  [.line 1, .instruction ⟨0⟩ none, .instruction ⟨1⟩ none, .line 2, .instruction ⟨2⟩ none,
    .jump ⟨0⟩ 1, .instruction ⟨3⟩ none, .probe 0 0, .line 3, .instruction ⟨4⟩ none,
    .label ⟨0⟩ true, .instruction ⟨5⟩ none, .probe 1 0, .noSuccessor, .endMethod]

/-- Merges in a circle, one of them with an unknown instruction; a skipped representative, a skipped
member of another class, and an interval that is empty. -/
def circular : List Decision :=
  [.merge ⟨2⟩ ⟨0⟩, .merge ⟨4⟩ ⟨2⟩, .merge ⟨0⟩ ⟨4⟩, .merge ⟨9⟩ ⟨1⟩, .merge ⟨5⟩ ⟨3⟩, .ignore ⟨2⟩ ⟨2⟩,
    .ignore ⟨5⟩ ⟨5⟩, .ignore ⟨4⟩ ⟨0⟩]

theorem FlowGraph.tally_counts_classes_circular :
    ∃ g reps items, FlowGraph.ofEvents (some #[true, false]) branching = .ok g ∧
      (∀ id, id ∈ reps ↔ (∃ a < g.size, (Selection.ofDecisions g circular).root a = id) ∧
        ¬ Selection.Ignored g circular id) ∧
      List.Forall₂ (Selection.CountsClass g circular) reps items ∧
      (Selection.ofDecisions g circular).tally g
          { name := "run", desc := "()V", signature := none } =
        .ok (({ name := "run", desc := "()V", signature := none } : MethodReport).plus
          ((items.map Node.totals).sum +
            .ofMethod ((items.map Node.totals).sum.instructions.covered ≠ 0))) := by
  obtain ⟨g, hg⟩ : ∃ g, FlowGraph.ofEvents (some #[true, false]) branching = .ok g :=
    exists_eq_ok (by decide +kernel)
  have hok : ((FlowGraph.ofEvents (some #[true, false]) branching).bind fun g ↦
      (Selection.ofDecisions g circular).tally g
        { name := "run", desc := "()V", signature := none }).toOption.isSome = true := by
    decide +kernel
  have hfits : (Selection.ofDecisions g circular).tally g
      { name := "run", desc := "()V", signature := none } ≠ .error .overflow := by
    intro hoverflow
    rw [hg, Except.bind, hoverflow] at hok
    cases hok
  obtain ⟨-, -, reps, items, -, hreps, hitems, htally⟩ :=
    FlowGraph.tally_counts_classes hg (by simp [circular]) "run" "()V" none hfits
  exact ⟨g, reps, items, hg, hreps, hitems, htally⟩

end ProbeCoverage
