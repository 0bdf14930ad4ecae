import Mathlib.Data.List.Forall2
import ProbeCoverage.Selection
import ProbeCoverage.Proofs.Additivity
import ProbeCoverage.Proofs.Merge

/-!
# More coverage

Two graphs with the same instructions, of which the second has taken at least the branches of the
first. More probes give such a graph, and so does a merge. A selection leaves the same instructions
of both to be reported, and those of the second are covered at least as those of the first.
-/

namespace ProbeCoverage

/-- The same instruction, with at least the branches taken. -/
structure Node.Below (n m : Node) : Prop where
  outline : n.outline = m.outline
  covered : ∀ i, i ∈ n.covered → i ∈ m.covered

namespace Node

variable {n m k n' m' : Node}

theorem Below.trans (h : n.Below m) (h' : m.Below k) : n.Below k :=
  ⟨h.outline.trans h'.outline, fun i hi ↦ h'.covered i (h.covered i hi)⟩

theorem Below.line (h : n.Below m) : n.line = m.line := (congrArg Node.line h.outline :)

theorem Below.branches (h : n.Below m) : n.branches = m.branches :=
  (congrArg Node.branches h.outline :)

theorem Below.signature (h : n.Below m) : n.signature = m.signature :=
  (congrArg Node.signature h.outline :)

theorem Below.isCovered (h : n.Below m) (hn : n.isCovered = true) : m.isCovered = true := by
  obtain ⟨i, hi⟩ := isCovered_iff.mp hn
  exact isCovered_iff.mpr ⟨i, h.covered i hi⟩

theorem Below.merge (h : n.Below m) (h' : n'.Below m') : (n.merge n').Below (m.merge m') where
  outline := by simp [Node.merge, Node.outline, h.line, h'.branches, h.signature]
  covered i hi := by
    rw [Node.merge, BranchSet.mem_union] at hi ⊢
    exact hi.imp (h.covered i) (h'.covered i)

theorem below_cover (gain : Gain) (n : Node) : n.Below (gain.cover n) :=
  ⟨Eq.refl _, fun _ hi ↦ BranchSet.mem_union.mpr (Or.inl hi)⟩

end Node

namespace BranchSet

theorem mem_foldl_insert {l : List Nat} {s : BranchSet} {i : Nat} :
    i ∈ l.foldl insert s ↔ i ∈ s ∨ i ∈ l := by
  induction l generalizing s with
  | nil => simp
  | cons j l ih =>
    rw [List.foldl_cons, ih, mem_insert, List.mem_cons, or_assoc, or_left_comm]

theorem mem_ofList {l : List Nat} {i : Nat} : i ∈ ofList l ↔ i ∈ l := by
  simp [ofList, mem_foldl_insert]

end BranchSet

namespace Node

variable {n m : Node}

theorem mem_covered_retarget {targets : List Node} {i : Nat} :
    i ∈ (n.retarget targets).covered ↔ ∃ t, targets[i]? = some t ∧ t.isCovered = true := by
  simp only [retarget, BranchSet.mem_ofList, List.mem_filterMap, Prod.exists,
    List.mem_zipIdx_iff_getElem?]
  constructor
  · rintro ⟨t, k, hk, ht⟩
    split at ht
    next hcov =>
      cases ht
      exact ⟨t, hk, hcov⟩
    next => cases ht
  · rintro ⟨t, ht, hcov⟩
    exact ⟨t, i, ht, if_pos hcov⟩

theorem Below.retarget (h : n.Below m) {ts us : List Node} (hts : List.Forall₂ Below ts us) :
    (n.retarget ts).Below (m.retarget us) where
  outline := by simp [Node.retarget, Node.outline, h.line, h.signature, hts.length_eq]
  covered i hi := by
    rw [mem_covered_retarget] at hi ⊢
    obtain ⟨t, ht, hcov⟩ := hi
    obtain ⟨hlt, rfl⟩ := List.getElem?_eq_some_iff.mp ht
    have hlt' : i < us.length := hts.length_eq ▸ hlt
    have hbelow := (List.forall₂_iff_get.mp hts).2 i hlt hlt'
    exact ⟨us[i], List.getElem?_eq_getElem hlt', hbelow.isCovered hcov⟩

end Node

/-! ## Graphs -/

section Lists

variable {α β : Type} {R : α → β → Prop} {l : List α} {l' : List β}

theorem rel_getElem? (h : List.Forall₂ R l l') (i : Nat) : Option.Rel R l[i]? l'[i]? := by
  induction h generalizing i with
  | nil => exact .none
  | cons hab _ ih =>
    cases i with
    | zero => exact .some hab
    | succ i => exact ih i

theorem forall₂_zipIdx (h : List.Forall₂ R l l') (k : Nat) :
    List.Forall₂ (fun p q ↦ R p.1 q.1 ∧ p.2 = q.2) (l.zipIdx k) (l'.zipIdx k) := by
  induction h generalizing k with
  | nil => exact .nil
  | cons hab _ ih => exact .cons ⟨hab, rfl⟩ (ih (k + 1))

end Lists

/-- The same instructions, each with at least the branches taken. -/
structure FlowGraph.Below (g h : FlowGraph) : Prop where
  nodes : List.Forall₂ Node.Below g.nodes.toList h.nodes.toList
  handles : g.handles = h.handles
  ids : g.ids = h.ids

namespace FlowGraph

variable {g h : FlowGraph}

theorem Below.node? (hgh : g.Below h) (id : NodeId) :
    Option.Rel Node.Below (g.node? id) (h.node? id) := by
  have hrel := rel_getElem? hgh.nodes id
  rwa [Array.getElem?_toList, Array.getElem?_toList] at hrel

theorem Below.id? (hgh : g.Below h) (handle : Handle) : g.id? handle = h.id? handle := by
  rw [FlowGraph.id?, FlowGraph.id?, hgh.ids]

theorem below_of_joins {a : Array Node} (hjoin : Joins a g.nodes h.nodes)
    (hhandles : g.handles = h.handles) (hids : g.ids = h.ids) : g.Below h := by
  refine ⟨List.forall₂_iff_get.mpr ⟨size_eq_of_outlines hjoin.right, fun i hi hi' ↦ ?_⟩, hhandles,
    hids⟩
  have hg : g.nodes[i]? = some g.nodes[i] := Array.getElem?_eq_getElem hi
  obtain ⟨m, hm, hout⟩ := getElem?_of_outlines hjoin.right hg
  obtain ⟨hlt, rfl⟩ := Array.getElem?_eq_some_iff.mp hm
  refine ⟨hout, fun k hk ↦ ?_⟩
  obtain ⟨m', hm', hk'⟩ := (hjoin.taken ⟨i, k⟩).mpr (Or.inr ⟨_, hg, hk⟩)
  cases hm.symm.trans hm'
  exact hk'

/-- More probes, more coverage. -/
theorem below_of_fires {A B : Option (Array Bool)} {es : List Event}
    (hg : FlowGraph.ofEvents A es = .ok g) (hh : FlowGraph.ofEvents B es = .ok h)
    (hfires : ∀ i, Stream.Uses es i → fires A i = true → fires B i = true) : g.Below h := by
  have houtline := outline_eq hh hg
  -- `A` adds nothing to `B`
  have hjoin : Joins h.nodes g.nodes h.nodes := joins_ofEvents hh hg hh fun i hi ↦ by
    rw [Bool.eq_iff_iff, Bool.or_eq_true]
    exact (or_iff_left_of_imp (hfires i hi)).symm
  have hhandles : g.handles = h.handles := (congrArg FlowGraph.handles houtline :)
  have hids : g.ids = h.ids := (congrArg FlowGraph.ids houtline :)
  exact below_of_joins hjoin hhandles hids

/-- A merge adds coverage. -/
theorem Below.coverAll (hgh : g.Below h) (gain : Gain) :
    g.Below { h with nodes := gain.coverAll h.nodes } where
  nodes := by
    rw [Gain.coverAll, Array.toList_map, List.forall₂_map_right_iff]
    exact hgh.nodes.imp fun {n m} hnm ↦ hnm.trans (m.below_cover gain)
  handles := hgh.handles
  ids := hgh.ids

end FlowGraph

/-! ## Selections -/

namespace Selection

variable {g h : FlowGraph}

theorem ofDecisions_of_below (hgh : g.Below h) (ds : List Decision) :
    ofDecisions g ds = ofDecisions h ds := by
  have happly : apply g = apply h := by
    funext s d
    have hid : g.id? = h.id? := funext hgh.id?
    cases d <;> simp only [apply, hid]
  rw [ofDecisions, ofDecisions, happly]

/-- The same instructions are replaced, by such as are below. -/
def Revised.Below (w v : Revised) : Prop := ∀ id : NodeId, Option.Rel Node.Below w[id]? v[id]?

namespace Revised

variable {w v : Revised}

theorem Below.empty : Below ∅ ∅ := fun id ↦ by
  rw [Std.ExtTreeMap.getElem?_empty]
  exact .none

theorem Below.insert (hwv : w.Below v) {n m : Node} (hnm : n.Below m) (id : NodeId) :
    Below (w.insert id n) (v.insert id m) := fun k ↦ by
  rw [Std.ExtTreeMap.getElem?_insert, Std.ExtTreeMap.getElem?_insert]
  split
  · exact .some hnm
  · exact hwv k

theorem Below.current (hwv : w.Below v) (hgh : g.Below h) (id : NodeId) :
    Option.Rel Node.Below (current g w id) (current h v id) := by
  have hnodes := hgh.node? id
  have hid := hwv id
  rw [Selection.current, Selection.current]
  generalize w[id]? = a at hid ⊢
  generalize v[id]? = b at hid ⊢
  cases hid with
  | some hnm => exact .some hnm
  | none => exact hnodes

theorem Below.combine (hwv : w.Below v) (hgh : g.Below h) (s : Selection) (id : NodeId) :
    Below (combine g s w id) (combine h s v id) := by
  have hrep := hwv.current hgh (s.root id)
  have hown := hwv.current hgh id
  simp only [Selection.combine]
  generalize Selection.current g w (s.root id) = a at hrep ⊢
  generalize Selection.current h v (s.root id) = b at hrep ⊢
  generalize Selection.current g w id = c at hown ⊢
  generalize Selection.current h v id = d at hown ⊢
  cases hrep with
  | none => exact hwv
  | some hrep =>
    cases hown with
    | none => exact hwv
    | some hown => exact hwv.insert (hrep.merge hown) _

theorem Below.copyBack (hwv : w.Below v) (hgh : g.Below h) (s : Selection) (id : NodeId) :
    Below (copyBack g s w id) (copyBack h s v id) := by
  have hrep := hwv.current hgh (s.root id)
  simp only [Selection.copyBack]
  generalize Selection.current g w (s.root id) = a at hrep ⊢
  generalize Selection.current h v (s.root id) = b at hrep ⊢
  cases hrep with
  | none => exact hwv
  | some hrep => exact hwv.insert hrep _

theorem Below.replaceAt (hwv : w.Below v) (hgh : g.Below h) (source : NodeId)
    (targets : List NodeId) :
    Below (replaceAt g w source targets) (replaceAt h v source targets) := by
  have hsource := hwv.current hgh source
  have htargets : List.Forall₂ Node.Below (targets.filterMap (Selection.current g w))
      (targets.filterMap (Selection.current h v)) := by
    refine List.rel_filterMap (R := (· = ·)) ?_ (List.forall₂_same.mpr fun _ _ ↦ rfl)
    rintro id _ rfl
    exact hwv.current hgh id
  simp only [Selection.replaceAt]
  generalize Selection.current g w source = a at hsource ⊢
  generalize Selection.current h v source = b at hsource ⊢
  cases hsource with
  | none => exact hwv
  | some hsource => exact hwv.insert (hsource.retarget htargets) _

theorem Below.getD (hwv : w.Below v) {n m : Node} (hnm : n.Below m) (id : NodeId) :
    (w.getD id n).Below (v.getD id m) := by
  have hid := hwv id
  rw [Std.ExtTreeMap.getD_eq_getD_getElem?, Std.ExtTreeMap.getD_eq_getD_getElem?]
  generalize w[id]? = a at hid ⊢
  generalize v[id]? = b at hid ⊢
  cases hid with
  | none => exact hnm
  | some hid => exact hid

end Revised

theorem revised_below (hgh : g.Below h) (s : Selection) : (s.revised g).Below (s.revised h) := by
  have hcombined : Revised.Below (s.links.keys.foldl (combine g s) ∅)
      (s.links.keys.foldl (combine h s) ∅) :=
    List.foldl_rel .empty fun id _ w v hwv ↦ hwv.combine hgh s id
  have hcopied : Revised.Below
      (s.links.keys.foldl (copyBack g s) (s.links.keys.foldl (combine g s) ∅))
      (s.links.keys.foldl (copyBack h s) (s.links.keys.foldl (combine h s) ∅)) :=
    List.foldl_rel hcombined fun id _ w v hwv ↦ hwv.copyBack hgh s id
  exact List.foldl_rel hcopied fun p _ w v hwv ↦ hwv.replaceAt hgh p.1 p.2

/-- The same instructions are reported, and they are covered at least as before. -/
theorem reported_below (hgh : g.Below h) (s : Selection) :
    List.Forall₂ Node.Below (s.reported g) (s.reported h) := by
  refine List.rel_filterMap ?_ (forall₂_zipIdx hgh.nodes 0)
  rintro ⟨n, id⟩ ⟨m, _⟩ ⟨hnm, rfl⟩
  dsimp only
  split
  · exact .none
  · exact .some ((revised_below hgh s).getD hnm id)

end Selection

end ProbeCoverage
