import Mathlib.Data.List.Induction
import Mathlib.Logic.Relation
import ProbeCoverage.Selection

/-!
# Links between merged instructions

A merge links the end of one walk along the links to the end of another. So no walk is longer than
there are links, and it ends where a relabelling of whole classes would have put it: the classes are
those of the equivalence that the merged pairs generate, and each is named by one of its members.
-/

namespace ProbeCoverage

namespace Selection

/-! ## Walks along links -/

/-- `depth` counts the links that lead on from an instruction. -/
structure Depths (links : Std.ExtTreeMap NodeId NodeId) (depth : NodeId → Nat) : Prop where
  zero : ∀ id, links[id]? = none → depth id = 0
  succ : ∀ id next, links[id]? = some next → depth id = depth next + 1
  le_size : ∀ id, depth id ≤ links.size

/-- Every walk along the links comes to an end. -/
def Rooted (s : Selection) : Prop := ∃ depth, Depths s.links depth

variable {links : Std.ExtTreeMap NodeId NodeId} {depth : NodeId → Nat} {s : Selection}
  {a b id next : NodeId}

theorem follow_of_none (h : links[id]? = none) (n : Nat) : follow links n id = id := by
  cases n with
  | zero => rfl
  | succ n => rw [follow, h]

theorem follow_succ_of_some (h : links[id]? = some next) (n : Nat) :
    follow links (n + 1) id = follow links n next := by
  rw [follow, h]

/-- As many steps as there are links ahead are enough, and further ones change nothing. -/
theorem Depths.follow_eq (h : Depths links depth) {n : Nat} (hn : depth id ≤ n) :
    follow links n id = follow links (depth id) id := by
  induction n generalizing id with
  | zero => rw [Nat.le_zero.mp hn]
  | succ n ih =>
    cases hid : links[id]? with
    | none => rw [follow_of_none hid, follow_of_none hid]
    | some next =>
      have hdepth := h.succ id next hid
      rw [hdepth, follow_succ_of_some hid, follow_succ_of_some hid]
      apply ih
      omega

theorem root_of_none (h : s.links[id]? = none) : s.root id = id := follow_of_none h _

namespace Rooted

theorem root_of_some (h : s.Rooted) (hid : s.links[id]? = some next) :
    s.root id = s.root next := by
  obtain ⟨depth, hdepth⟩ := h
  rw [root, root, hdepth.follow_eq (hdepth.le_size id), hdepth.follow_eq (hdepth.le_size next),
    hdepth.succ id next hid, follow_succ_of_some hid]

/-- From the ends of the walks backwards, link by link. -/
theorem induction (h : s.Rooted) {P : NodeId → Prop} (hend : ∀ id, s.links[id]? = none → P id)
    (hstep : ∀ id next, s.links[id]? = some next → P next → P id) (id : NodeId) : P id := by
  obtain ⟨depth, hdepth⟩ := h
  induction hn : depth id generalizing id with
  | zero =>
    cases hid : s.links[id]? with
    | none => exact hend id hid
    | some next =>
      have hsucc := hdepth.succ id next hid
      omega
  | succ n ih =>
    cases hid : s.links[id]? with
    | none => exact hend id hid
    | some next =>
      have hsucc := hdepth.succ id next hid
      exact hstep id next hid (ih next (by omega))

theorem links_root (h : s.Rooted) (id : NodeId) : s.links[s.root id]? = none := by
  refine h.induction (P := fun id ↦ s.links[s.root id]? = none) (fun id hid ↦ ?_)
    (fun id next hid hnext ↦ ?_) id
  · rwa [root_of_none hid]
  · rwa [h.root_of_some hid]

theorem root_root (h : s.Rooted) (id : NodeId) : s.root (s.root id) = s.root id :=
  root_of_none (h.links_root id)

/-- Only an instruction without a link stands for itself. -/
theorem root_eq_self_iff (h : s.Rooted) : s.root id = id ↔ s.links[id]? = none := by
  constructor
  · intro heq
    rw [← heq]
    exact h.links_root id
  · exact root_of_none

end Rooted

/-! ## Merging two classes -/

/-- All that were labelled as `b` is are labelled as `a` is. -/
def relabel (label : NodeId → NodeId) (a b : NodeId) : NodeId → NodeId :=
  fun id ↦ if label id = label b then label a else label id

theorem rooted_empty : Rooted {} := by
  refine ⟨fun _ ↦ 0, fun _ _ ↦ rfl, fun id next h ↦ ?_, fun _ ↦ Nat.zero_le _⟩
  rw [Std.ExtTreeMap.getElem?_empty] at h
  cases h

theorem getElem?_insert_link (links : Std.ExtTreeMap NodeId NodeId) (a b id : NodeId) :
    (links.insert b a)[id]? = if b = id then some a else links[id]? := by
  simp [Std.ExtTreeMap.getElem?_insert]

/-- A new link from the end of one walk to the end of another makes the walks to the first longer by
one. -/
theorem Rooted.insert (h : s.Rooted) (ha : s.links[a]? = none) (hb : s.links[b]? = none)
    (hne : a ≠ b) : Rooted { s with links := s.links.insert b a } := by
  have hroot : ∀ {id next}, s.links[id]? = some next → s.root id = s.root next := h.root_of_some
  obtain ⟨depth, hdepth⟩ := h
  refine ⟨fun id ↦ if s.root id = b then depth id + 1 else depth id, ?_, ?_, ?_⟩
  · intro id hid
    rw [getElem?_insert_link] at hid
    split at hid
    next => cases hid
    next hbid =>
      rw [root_of_none hid, if_neg (Ne.symm hbid)]
      exact hdepth.zero id hid
  · intro id next hid
    rw [getElem?_insert_link] at hid
    split at hid
    next hbid =>
      cases hid
      subst hbid
      rw [root_of_none hb, root_of_none ha, if_pos rfl, if_neg hne, hdepth.zero _ ha,
        hdepth.zero _ hb]
    next =>
      rw [hroot hid, hdepth.succ id next hid]
      split <;> rfl
  · intro id
    have hle := hdepth.le_size id
    have hnot : ¬ b ∈ s.links := by simpa using hb
    have hsize : (s.links.insert b a).size = s.links.size + 1 := by
      simp [Std.ExtTreeMap.size_insert, hnot]
    change _ ≤ (s.links.insert b a).size
    split <;> omega

/-- The walks that ended at `b` now end at `a`, all others where they did. -/
theorem Rooted.root_insert (h : s.Rooted) (ha : s.links[a]? = none) (hb : s.links[b]? = none)
    (hne : a ≠ b) (id : NodeId) : root { s with links := s.links.insert b a } id =
      if s.root id = b then a else s.root id := by
  have hrooted := h.insert ha hb hne
  have hlink := getElem?_insert_link s.links a b
  refine h.induction (P := fun id ↦ root _ id = if s.root id = b then a else s.root id)
    (fun id hid ↦ ?_) (fun id next hid hnext ↦ ?_) id
  · rw [root_of_none hid]
    split
    next hend =>
      have hnew := (hlink id).trans (if_pos hend.symm)
      rw [hrooted.root_of_some hnew]
      exact root_of_none ((hlink a).trans ((if_neg (Ne.symm hne)).trans ha))
    next hend => exact root_of_none ((hlink id).trans ((if_neg (Ne.symm hend)).trans hid))
  · have hend : b ≠ id := by
      rintro rfl
      rw [hb] at hid
      cases hid
    have hnew := (hlink id).trans ((if_neg hend).trans hid)
    rw [hrooted.root_of_some hnew, hnext, h.root_of_some hid]

/-- A merge relabels a class and leaves the walks finite. -/
theorem Rooted.merge (h : s.Rooted) (a b : NodeId) :
    (s.merge a b).Rooted ∧ (s.merge a b).root = relabel s.root a b := by
  unfold Selection.merge
  dsimp only
  split
  next heq =>
    refine ⟨h, funext fun id ↦ ?_⟩
    unfold relabel
    split
    next hid => rw [hid, heq]
    next => rfl
  next hne =>
    have ha := h.links_root a
    have hb := h.links_root b
    exact ⟨h.insert ha hb hne, funext fun id ↦ h.root_insert ha hb hne id⟩

/-! ## Classes of merged instructions -/

/-- The instructions of `g` that a decision merges. -/
def merged? (g : FlowGraph) : Decision → Option (NodeId × NodeId)
  | .merge a b =>
    match g.id? a, g.id? b with
    | some a, some b => some (a, b)
    | _, _ => none
  | _ => none

def mergedPairs (g : FlowGraph) (ds : List Decision) : List (NodeId × NodeId) :=
  ds.filterMap (merged? g)

/-- Two instructions count as one: the equivalence that the merged pairs generate. -/
def SameClass (g : FlowGraph) (ds : List Decision) : NodeId → NodeId → Prop :=
  Relation.EqvGen fun a b ↦ (a, b) ∈ mergedPairs g ds

variable {g : FlowGraph} {ds : List Decision}

theorem ofDecisions_concat (g : FlowGraph) (ds : List Decision) (d : Decision) :
    ofDecisions g (ds ++ [d]) = apply g (ofDecisions g ds) d := by
  rw [ofDecisions, List.foldl_append, List.foldl_cons, List.foldl_nil, ofDecisions]

theorem SameClass.refl (id : NodeId) : SameClass g ds id id := Relation.EqvGen.refl id

theorem SameClass.symm (h : SameClass g ds a b) : SameClass g ds b a := Relation.EqvGen.symm _ _ h

theorem SameClass.trans {c : NodeId} (h : SameClass g ds a b) (h' : SameClass g ds b c) :
    SameClass g ds a c := Relation.EqvGen.trans _ _ _ h h'

theorem links_apply (g : FlowGraph) (s : Selection) (d : Decision) :
    (apply g s d).links =
      match merged? g d with
      | some (a, b) => (s.merge a b).links
      | none => s.links := by
  cases d with
  | ignore first last =>
    rw [apply]
    split <;> rfl
  | merge a b =>
    rw [apply, merged?]
    split <;> simp [*]
  | retarget source targets =>
    rw [apply]
    split <;> rfl

theorem root_congr {t : Selection} (h : s.links = t.links) : s.root = t.root := by
  funext id
  rw [root, root, h]

theorem Rooted.congr {t : Selection} (h : s.Rooted) (hlinks : t.links = s.links) : t.Rooted := by
  rwa [Rooted, hlinks]

/-- If labels are equal for the pairs of a relation, relabelling equates one more pair. -/
theorem relabel_eq_iff {R : NodeId → NodeId → Prop} {label : NodeId → NodeId}
    (h : ∀ x y, label x = label y ↔ Relation.EqvGen R x y) (a b : NodeId) {x y : NodeId} :
    relabel label a b x = relabel label a b y ↔
      Relation.EqvGen (fun x y ↦ R x y ∨ x = a ∧ y = b) x y := by
  have hold : ∀ {x y}, label x = label y →
      Relation.EqvGen (fun x y ↦ R x y ∨ x = a ∧ y = b) x y :=
    fun heq ↦ Relation.EqvGen.mono (fun _ _ ↦ Or.inl) _ _ ((h _ _).mp heq)
  have hnew : Relation.EqvGen (fun x y ↦ R x y ∨ x = a ∧ y = b) a b :=
    .rel _ _ (Or.inr ⟨rfl, rfl⟩)
  constructor
  · intro heq
    unfold relabel at heq
    split at heq
    next hx =>
      split at heq
      next hy => exact hold (hx.trans hy.symm)
      next => exact .trans _ _ _ (hold hx) (.trans _ _ _ (.symm _ _ hnew) (hold heq))
    next =>
      split at heq
      next hy => exact .trans _ _ _ (hold heq) (.trans _ _ _ hnew (hold hy.symm))
      next => exact hold heq
  · intro hxy
    induction hxy with
    | rel x y hrel =>
      rcases hrel with hrel | ⟨rfl, rfl⟩
      · rw [relabel, relabel, (h x y).mpr (.rel _ _ hrel)]
      · simp [relabel]
    | refl x => rfl
    | symm x y _ ih => exact ih.symm
    | trans x y z _ _ ihxy ihyz => exact ihxy.trans ihyz

/-- The walks end, and those of a class and of no other end at the same instruction. -/
theorem classes_ofDecisions (g : FlowGraph) (ds : List Decision) :
    (ofDecisions g ds).Rooted ∧
      ∀ x y, (ofDecisions g ds).root x = (ofDecisions g ds).root y ↔ SameClass g ds x y := by
  induction ds using List.reverseRecOn with
  | nil =>
    refine ⟨rooted_empty, fun x y ↦ ?_⟩
    have hroot : ∀ id, (ofDecisions g []).root id = id :=
      fun id ↦ root_of_none Std.ExtTreeMap.getElem?_empty
    rw [hroot, hroot]
    constructor
    · rintro rfl
      exact SameClass.refl _
    · intro h
      induction h with
      | rel x y hrel => cases hrel
      | refl x => rfl
      | symm x y _ ih => exact ih.symm
      | trans x y z _ _ ihxy ihyz => exact ihxy.trans ihyz
  | append_singleton ds d ih =>
    obtain ⟨hrooted, hclass⟩ := ih
    have hlinks := links_apply g (ofDecisions g ds) d
    have hpairs : mergedPairs g (ds ++ [d]) = mergedPairs g ds ++ (merged? g d).toList := by
      rw [mergedPairs, List.filterMap_append, mergedPairs]
      cases hd : merged? g d <;> simp [hd]
    rw [ofDecisions_concat, SameClass, hpairs]
    cases hd : merged? g d with
    | none =>
      rw [hd] at hlinks
      rw [root_congr hlinks]
      simpa [SameClass] using ⟨hrooted.congr hlinks, hclass⟩
    | some p =>
      obtain ⟨a, b⟩ := p
      rw [hd] at hlinks
      obtain ⟨hmerged, hroot⟩ := hrooted.merge a b
      rw [root_congr hlinks, hroot]
      refine ⟨hmerged.congr hlinks, fun x y ↦ ?_⟩
      rw [relabel_eq_iff hclass]
      simp

theorem rooted_ofDecisions (g : FlowGraph) (ds : List Decision) : (ofDecisions g ds).Rooted :=
  (classes_ofDecisions g ds).1

theorem root_ofDecisions_eq_iff :
    (ofDecisions g ds).root a = (ofDecisions g ds).root b ↔ SameClass g ds a b :=
  (classes_ofDecisions g ds).2 a b

theorem sameClass_root (id : NodeId) : SameClass g ds id ((ofDecisions g ds).root id) :=
  root_ofDecisions_eq_iff.mp ((rooted_ofDecisions g ds).root_root id).symm

/-- A class of several instructions has only instructions that a handle names. -/
theorem SameClass.eq_or_named (h : SameClass g ds a b) :
    a = b ∨ (∃ handle, g.id? handle = some a) ∧ ∃ handle, g.id? handle = some b := by
  induction h with
  | rel a b hmem =>
    obtain ⟨d, -, hd⟩ := List.mem_filterMap.mp hmem
    unfold merged? at hd
    split at hd
    next =>
      split at hd
      next ha hb =>
        cases hd
        exact Or.inr ⟨⟨_, ha⟩, ⟨_, hb⟩⟩
      next => cases hd
    next => cases hd
  | refl => exact Or.inl rfl
  | symm a b _ ih => exact ih.imp Eq.symm And.symm
  | trans a b c _ _ hab hbc =>
    rcases hab with rfl | ⟨ha, hb⟩
    · exact hbc
    · rcases hbc with rfl | ⟨-, hc⟩
      · exact Or.inr ⟨ha, hb⟩
      · exact Or.inr ⟨ha, hc⟩

theorem SameClass.eq_or_lt (h : SameClass g ds a b)
    (hknown : ∀ handle id, g.id? handle = some id → id < g.size) :
    a = b ∨ a < g.size ∧ b < g.size := by
  rcases h.eq_or_named with heq | ⟨⟨_, ha⟩, ⟨_, hb⟩⟩
  · exact Or.inl heq
  · exact Or.inr ⟨hknown _ _ ha, hknown _ _ hb⟩

end Selection

end ProbeCoverage
