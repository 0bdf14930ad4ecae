import ProbeCoverage.RunMerge
import Mathlib.Data.List.Basic

/-!
# Spans and imprints

The span of some probes reaches from the smallest to the largest, in whatever order they come. The
imprint of a graph whose signatures are all different holds each instruction under its signature,
and no other.
-/

namespace ProbeCoverage

namespace ProbeSpan

/-- The smallest interval around the probes. -/
structure Spans (s : ProbeSpan) (ps : List Nat) : Prop where
  first_mem : s.first ∈ ps
  last_mem : s.last ∈ ps
  bounds : ∀ p ∈ ps, s.first ≤ p ∧ p ≤ s.last

namespace Spans

variable {s t : ProbeSpan} {ps qs : List Nat}

theorem extend (h : Spans s ps) (p : Nat) : Spans (s.extend p) (ps ++ [p]) where
  first_mem := by
    rw [List.mem_append, List.mem_singleton]
    change min s.first p ∈ ps ∨ min s.first p = p
    rcases Nat.le_total s.first p with hp | hp
    · rw [Nat.min_eq_left hp]
      exact Or.inl h.first_mem
    · exact Or.inr (Nat.min_eq_right hp)
  last_mem := by
    rw [List.mem_append, List.mem_singleton]
    change max s.last p ∈ ps ∨ max s.last p = p
    rcases Nat.le_total s.last p with hp | hp
    · exact Or.inr (Nat.max_eq_right hp)
    · rw [Nat.max_eq_left hp]
      exact Or.inl h.last_mem
  bounds x hx := by
    simp only [ProbeSpan.extend]
    rcases List.mem_append.mp hx with hx | hx
    · have := h.bounds x hx
      omega
    · obtain rfl := List.mem_singleton.mp hx
      omega

theorem foldl_extend (h : Spans s ps) (qs : List Nat) :
    Spans (qs.foldl ProbeSpan.extend s) (ps ++ qs) := by
  induction qs generalizing s ps with
  | nil => simpa using h
  | cons q qs ih => simpa using ih (h.extend q)

theorem contains_iff (h : Spans s ps) {i : Nat} :
    s.contains i = true ↔ ∃ j ∈ ps, ∃ k ∈ ps, j ≤ i ∧ i ≤ k := by
  rw [ProbeSpan.contains, Bool.and_eq_true, decide_eq_true_eq, decide_eq_true_eq]
  constructor
  · rintro ⟨hfirst, hlast⟩
    exact ⟨s.first, h.first_mem, s.last, h.last_mem, hfirst, hlast⟩
  · rintro ⟨j, hj, k, hk, hji, hik⟩
    exact ⟨Nat.le_trans (h.bounds j hj).1 hji, Nat.le_trans hik (h.bounds k hk).2⟩

/-- Probes that are moved without changing their order move the span. -/
theorem moved {f : Nat → Nat} (h : Spans s ps) (h' : Spans t qs)
    (hmem : ∀ q, q ∈ qs ↔ ∃ p ∈ ps, f p = q) (hf : ∀ p ∈ ps, ∀ p' ∈ ps, p ≤ p' → f p ≤ f p') :
    t.first = f s.first ∧ t.last = f s.last := by
  have hfirst := (hmem _).mpr ⟨s.first, h.first_mem, rfl⟩
  have hlast := (hmem _).mpr ⟨s.last, h.last_mem, rfl⟩
  obtain ⟨p, hp, hpt⟩ := (hmem _).mp h'.first_mem
  obtain ⟨p', hp', hpt'⟩ := (hmem _).mp h'.last_mem
  constructor
  · apply Nat.le_antisymm (h'.bounds _ hfirst).1
    rw [← hpt]
    exact hf _ h.first_mem p hp (h.bounds p hp).1
  · apply Nat.le_antisymm _ (h'.bounds _ hlast).2
    rw [← hpt']
    exact hf p' hp' _ h.last_mem (h.bounds p' hp').2

theorem unique (h : Spans s ps) (h' : Spans t qs) (hmem : ∀ p, p ∈ ps ↔ p ∈ qs) : s = t := by
  have hsame := h.moved (f := id) h' (fun q ↦ by simp [hmem]) fun _ _ _ _ hle ↦ hle
  cases s
  cases t
  simp_all

end Spans

theorem spans_ofProbes {ps : List Nat} {s : ProbeSpan} (h : ofProbes ps = some s) :
    Spans s ps := by
  cases ps with
  | nil => cases h
  | cons p ps =>
    obtain rfl := Option.some.inj h
    have hsingle : Spans (single p) [p] := ⟨by simp [single], by simp [single], by simp [single]⟩
    exact hsingle.foldl_extend ps

theorem ofProbes_eq_none_iff {ps : List Nat} : ofProbes ps = none ↔ ps = [] := by
  cases ps <;> simp [ofProbes]

theorem ofProbes_eq_none_congr {ps qs : List Nat} {f : Nat → Nat}
    (hmem : ∀ q, q ∈ qs ↔ ∃ p ∈ ps, f p = q) : ofProbes qs = none ↔ ofProbes ps = none := by
  rw [ofProbes_eq_none_iff, ofProbes_eq_none_iff]
  constructor
  · rintro rfl
    apply List.eq_nil_iff_forall_not_mem.mpr
    intro p hp
    exact List.not_mem_nil ((hmem (f p)).mpr ⟨p, hp, rfl⟩)
  · rintro rfl
    apply List.eq_nil_iff_forall_not_mem.mpr
    intro q hq
    obtain ⟨p, hp, -⟩ := (hmem q).mp hq
    exact List.not_mem_nil hp

theorem ofProbes_congr {ps qs : List Nat} (h : ∀ p, p ∈ ps ↔ p ∈ qs) :
    ofProbes ps = ofProbes qs := by
  have hnone := @ofProbes_eq_none_congr ps qs id fun q ↦ by simp [h]
  cases hp : ofProbes ps with
  | none => exact (hnone.mpr hp).symm
  | some s =>
    cases hq : ofProbes qs with
    | none =>
      rw [hnone.mp hq] at hp
      cases hp
    | some t => rw [(spans_ofProbes hp).unique (spans_ofProbes hq) h]

theorem width_eq_ok {s : ProbeSpan} (h : s.last - s.first + 1 < probeBound) :
    s.width = .ok (s.last - s.first + 1) := by
  rw [width, addBelow, if_pos h]

end ProbeSpan

/-! ## Imprints -/

/-- All instructions have signatures, and these are all different. -/
def AllSigned (signatures : List (Option String)) : Prop := none ∉ signatures ∧ signatures.Nodup

theorem AllSigned.cons {o : Option String} {l : List (Option String)} (h : AllSigned (o :: l)) :
    ∃ s, o = some s ∧ some s ∉ l ∧ AllSigned l := by
  obtain ⟨hnone, hdup⟩ := h
  cases o with
  | none => exact absurd List.mem_cons_self hnone
  | some s =>
    rw [List.nodup_cons] at hdup
    exact ⟨s, rfl, hdup.1, fun hl ↦ hnone (List.mem_cons_of_mem _ hl), hdup.2⟩

namespace Imprint

theorem get?_insert (m : Imprint) (s t : String) (n : Node) :
    (m.insert s n).get? t = if s = t then some n else m.get? t := by
  simp [get?, insert, Std.ExtTreeMap.getElem?_insert]

theorem size_insert_of_get? {m : Imprint} {s : String} (h : m.get? s = none) (n : Node) :
    (m.insert s n).size = m.size + 1 := by
  have hnot : ¬ s ∈ m.nodes := by
    simpa [get?] using h
  simp [size, insert, Std.ExtTreeMap.size_insert, hnot]

theorem mem_toList {m : Imprint} {s : String} {n : Node} :
    (s, n) ∈ m.toList ↔ m.get? s = some n :=
  Std.ExtTreeMap.mem_toList_iff_getElem?_eq_some

theorem foldlM_insertNode? {ns : List Node} {m : Imprint}
    (h : AllSigned (ns.map Node.signature))
    (hnew : ∀ n ∈ ns, ∀ s, n.signature = some s → m.get? s = none) :
    ∃ m', ns.foldlM insertNode? m = some m' ∧ m'.size = m.size + ns.length ∧
      ∀ s n, m'.get? s = some n ↔ n ∈ ns ∧ n.signature = some s ∨ m.get? s = some n := by
  induction ns generalizing m with
  | nil => exact ⟨m, rfl, rfl, by simp⟩
  | cons n ns ih =>
    obtain ⟨s, hs, hfresh, hns⟩ := h.cons
    have hnone : m.get? s = none := hnew n List.mem_cons_self s hs
    have hother : ∀ k ∈ ns, ∀ t, k.signature = some t → s ≠ t := fun k hk t ht hst ↦
      hfresh (hst ▸ ht ▸ List.mem_map_of_mem hk)
    obtain ⟨m', hm', hsize, hget⟩ := @ih (m.insert s n) hns fun k hk t ht ↦ by
      rw [get?_insert, if_neg (hother k hk t ht)]
      exact hnew k (List.mem_cons_of_mem n hk) t ht
    refine ⟨m', ?_, ?_, fun t k ↦ ?_⟩
    · rw [List.foldlM_cons, insertNode?, hs]
      exact hm'
    · rw [hsize, size_insert_of_get? hnone, List.length_cons]
      omega
    · rw [hget, get?_insert, List.mem_cons]
      by_cases hst : s = t
      · subst hst
        simp only [if_true, Option.some.injEq, hnone, reduceCtorEq, or_false]
        constructor
        · rintro (⟨hk, hks⟩ | rfl)
          · exact ⟨Or.inr hk, hks⟩
          · exact ⟨Or.inl rfl, hs⟩
        · rintro ⟨rfl | hk, hks⟩
          · exact Or.inr rfl
          · exact Or.inl ⟨hk, hks⟩
      · have hne : k = n → k.signature ≠ some t := fun hkn hk ↦
          hst (Option.some.inj (hs.symm.trans (hkn ▸ hk)))
        rw [if_neg hst]
        grind

/-- An imprint holds instructions of the graph only, whatever their signatures. -/
theorem mem_of_foldlM_insertNode? {ns : List Node} {m m' : Imprint}
    (h : ns.foldlM insertNode? m = some m') {s : String} {n : Node} (hn : m'.get? s = some n) :
    n ∈ ns ∧ n.signature = some s ∨ m.get? s = some n := by
  induction ns generalizing m with
  | nil =>
    cases h
    exact Or.inr hn
  | cons k ns ih =>
    rw [List.foldlM_cons, Option.bind_eq_bind, Option.bind_eq_some_iff] at h
    obtain ⟨m₁, hm₁, h⟩ := h
    obtain ⟨t, ht, rfl⟩ := Option.map_eq_some_iff.mp hm₁
    rcases ih h with ⟨hmem, hsig⟩ | hold
    · exact Or.inl ⟨List.mem_cons_of_mem k hmem, hsig⟩
    · rw [get?_insert] at hold
      split at hold
      next hts =>
        cases hold
        exact Or.inl ⟨List.mem_cons_self, hts ▸ ht⟩
      next => exact Or.inr hold

theorem mem_nodes_of_get? {g : FlowGraph} {m : Imprint} (h : g.imprint? = some m) {s : String}
    {n : Node} (hn : m.get? s = some n) : n ∈ g.nodes ∧ n.signature = some s := by
  rcases mem_of_foldlM_insertNode? h hn with ⟨hmem, hsig⟩ | hnone
  · exact ⟨Array.mem_def.mpr hmem, hsig⟩
  · have hempty : (∅ : Imprint).get? s = none := Std.ExtTreeMap.getElem?_empty
    rw [hempty] at hnone
    cases hnone

/-- The span of an imprint begins and ends at probes of the graph. -/
theorem probes_of_probeSpan {g : FlowGraph} {m : Imprint} (h : g.imprint? = some m)
    {t : ProbeSpan} (ht : m.probeSpan = some t) :
    t.first ∈ g.nodes.toList.filterMap (·.probe) ∧ t.last ∈ g.nodes.toList.filterMap (·.probe) := by
  have hsub : ∀ p ∈ m.toList.filterMap (·.2.probe), p ∈ g.nodes.toList.filterMap (·.probe) := by
    intro p hp
    obtain ⟨⟨s, n⟩, hn, hprobe⟩ := List.mem_filterMap.mp hp
    have hmem := (mem_nodes_of_get? h (mem_toList.mp hn)).1
    exact List.mem_filterMap.mpr ⟨n, Array.mem_def.mp hmem, hprobe⟩
  have hspan := ProbeSpan.spans_ofProbes ht
  exact ⟨hsub _ hspan.first_mem, hsub _ hspan.last_mem⟩

/-- The imprint holds the instructions of the graph under their signatures. -/
structure Prints (m : Imprint) (g : FlowGraph) : Prop where
  size : m.size = g.size
  get?_iff : ∀ s n, m.get? s = some n ↔ n ∈ g.nodes ∧ n.signature = some s

theorem exists_prints {g : FlowGraph} (h : AllSigned (g.nodes.map Node.signature).toList) :
    ∃ m, g.imprint? = some m ∧ Prints m g := by
  rw [Array.toList_map] at h
  have hempty : ∀ s, (∅ : Imprint).get? s = none := fun s ↦ Std.ExtTreeMap.getElem?_empty
  obtain ⟨m, hm, hsize, hget⟩ := foldlM_insertNode? h fun n _ s _ ↦ hempty s
  refine ⟨m, hm, hsize.trans (Nat.zero_add _), fun s n ↦ ?_⟩
  rw [hget, hempty, Array.mem_def]
  simp

theorem Prints.probeSpan_eq {m : Imprint} {g : FlowGraph} (h : Prints m g)
    (hsigned : none ∉ (g.nodes.map Node.signature).toList) : m.probeSpan = g.probeSpan := by
  refine ProbeSpan.ofProbes_congr fun p ↦ ?_
  simp only [List.mem_filterMap, Prod.exists, mem_toList, h.get?_iff, Array.mem_def]
  constructor
  · rintro ⟨s, n, ⟨hn, -⟩, hp⟩
    exact ⟨n, hn, hp⟩
  · rintro ⟨n, hn, hp⟩
    cases hs : n.signature with
    | none =>
      refine absurd ?_ hsigned
      rw [Array.toList_map]
      exact List.mem_map.mpr ⟨n, hn, hs⟩
    | some s => exact ⟨s, n, ⟨hn, hs⟩, hp⟩

end Imprint

theorem FlowGraph.mem_signatures {g : FlowGraph} {s : String} :
    s ∈ g.signatures ↔ some s ∈ (g.nodes.map Node.signature).toList := by
  have hfold : ∀ (ns : List Node) (t : Std.ExtTreeSet String),
      s ∈ ns.foldl (fun t n ↦ n.signature.elim t t.insert) t ↔
        some s ∈ ns.map Node.signature ∨ s ∈ t := fun ns ↦ by
    induction ns with
    | nil => simp
    | cons n ns ih =>
      intro t
      rw [List.foldl_cons, ih, List.map_cons, List.mem_cons]
      cases n.signature with
      | none => simp
      | some r =>
        have hcmp : compare r s = .eq ↔ some s = some r :=
          Std.LawfulEqOrd.compare_eq_iff_eq.trans (by simp [eq_comm])
        rw [Option.elim_some, Std.ExtTreeSet.mem_insert, hcmp, or_assoc, or_left_comm]
  rw [Array.toList_map, FlowGraph.signatures, hfold]
  simp

theorem Imprint.missingIn_eq_nil_iff {m : Imprint} {g : FlowGraph} : m.missingIn g = [] ↔
    ∀ s n, m.get? s = some n → some s ∈ (g.nodes.map Node.signature).toList := by
  have hpresent : ∀ s, g.signatures.contains s = true ↔
      some s ∈ (g.nodes.map Node.signature).toList := fun s ↦ by
    rw [Std.ExtTreeSet.contains_iff_mem, FlowGraph.mem_signatures]
  simp only [missingIn, List.filter_eq_nil_iff, List.mem_map, Prod.exists, mem_toList,
    Bool.not_eq_true', Bool.not_eq_false, hpresent]
  constructor
  · exact fun h s n hn ↦ h s ⟨s, n, hn, rfl⟩
  · rintro h _ ⟨s, n, hn, rfl⟩
    exact h s n hn

theorem Imprint.Prints.missingIn_eq_nil {m : Imprint} {g g' : FlowGraph} (h : Prints m g')
    (hsub : ∀ s, some s ∈ (g'.nodes.map Node.signature).toList →
      some s ∈ (g.nodes.map Node.signature).toList) : m.missingIn g = [] := by
  rw [missingIn_eq_nil_iff]
  intro s n hn
  obtain ⟨hmem, hsig⟩ := (h.get?_iff s n).mp hn
  refine hsub s ?_
  rw [Array.toList_map]
  exact List.mem_map.mpr ⟨n, Array.mem_def.mp hmem, hsig⟩

end ProbeCoverage
