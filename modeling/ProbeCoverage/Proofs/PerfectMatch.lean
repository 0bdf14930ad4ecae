import Mathlib.Data.List.Nodup
import Mathlib.Data.List.ReduceOption
import ProbeCoverage.Proofs.SpanWidth

/-!
# A merge is a perfect match

A merge asks for equally many instructions and looks every previous signature up in the graph. As
the signatures of an imprint are all different, this is enough: each instruction of the graph then
has a signature of its own, and each previous instruction is merged into exactly one. The spans of
both runs are laid over each other, and no probe outside of them changes.
-/

namespace ProbeCoverage

/-! ## Signatures -/

theorem eq_map_some_of_not_mem_none {α : Type} {l : List (Option α)} (h : none ∉ l) :
    l = l.reduceOption.map some := by
  induction l with
  | nil => rfl
  | cons o l ih =>
    rw [List.mem_cons, not_or] at h
    cases o with
    | none => exact absurd rfl h.1
    | some a => rw [List.reduceOption_cons_of_some, List.map_cons, ← ih h.2]

/-- All signatures are there and different exactly if they stay as many and different when the
absent ones are left out. -/
theorem allSigned_iff {l : List (Option String)} :
    AllSigned l ↔ l.reduceOption.length = l.length ∧ l.reduceOption.Nodup := by
  have hsome : none ∉ l ↔ l.reduceOption.length = l.length := by
    rw [List.reduceOption_length_eq_iff]
    constructor
    · intro h o ho
      exact Option.isSome_iff_ne_none.mpr fun heq ↦ h (heq ▸ ho)
    · intro h hnone
      exact absurd (h none hnone) Bool.false_ne_true
  rw [AllSigned, ← hsome]
  refine and_congr_right fun h ↦ ?_
  have hmap : l.Nodup ↔ (l.reduceOption.map some).Nodup :=
    eq_map_some_of_not_mem_none h ▸ Iff.rfl
  rw [hmap, List.nodup_map_iff fun _ _ ↦ Option.some.inj]

theorem FlowGraph.getElem?_signatures {g : FlowGraph} {id : NodeId} {n : Node}
    (hn : g.node? id = some n) :
    (g.nodes.map Node.signature).toList[id]? = some n.signature := by
  have hget : g.nodes[id]? = some n := hn
  simp [hget]

namespace Imprint

/-- Each instruction of the graph has a signature of its own, and these are the signatures of the
imprint. -/
structure Pairs (m : Imprint) (g : FlowGraph) : Prop where
  signed : AllSigned (g.nodes.map Node.signature).toList
  keys : ∀ s, (∃ n, m.get? s = some n) ↔ ∃ n ∈ g.nodes, n.signature = some s

variable {m : Imprint} {g : FlowGraph}

def signatures (m : Imprint) : List String := m.toList.map Prod.fst

theorem mem_signatures {s : String} : s ∈ m.signatures ↔ ∃ n, m.get? s = some n := by
  simp only [signatures, List.mem_map, Prod.exists, mem_toList]
  constructor
  · rintro ⟨_, n, hn, rfl⟩
    exact ⟨n, hn⟩
  · rintro ⟨n, hn⟩
    exact ⟨s, n, hn, rfl⟩

theorem nodup_signatures (m : Imprint) : m.signatures.Nodup := by
  rw [signatures, toList, Std.ExtTreeMap.map_fst_toList_eq_keys]
  exact Std.ExtTreeMap.nodup_keys

theorem length_signatures (m : Imprint) : m.signatures.length = m.size := by
  rw [signatures, toList, Std.ExtTreeMap.map_fst_toList_eq_keys]
  exact Std.ExtTreeMap.length_keys

theorem mem_reduceOption_signatures {s : String} :
    s ∈ (g.nodes.map Node.signature).toList.reduceOption ↔ ∃ n ∈ g.nodes, n.signature = some s := by
  rw [List.reduceOption_mem_iff, Array.mem_toList_iff, Array.mem_map]

/-- What a merge asks of the signatures is that they match one to one: as many different signatures
as there are instructions leave no room for another one or for a repetition. -/
theorem matches_iff_pairs : m.Matches g ↔ m.Pairs g := by
  have hlength : (g.nodes.map Node.signature).toList.length = g.size := by simp [FlowGraph.size]
  have hle := List.reduceOption_length_le (g.nodes.map Node.signature).toList
  constructor
  · intro h
    have hsub : m.signatures ⊆ (g.nodes.map Node.signature).toList.reduceOption := by
      intro s hs
      obtain ⟨n, hn⟩ := mem_signatures.mp hs
      exact mem_reduceOption_signatures.mpr (h.signatures s n hn)
    have hcount : m.signatures.length = (g.nodes.map Node.signature).toList.length := by
      rw [length_signatures, h.size, hlength]
    have hperm := (m.nodup_signatures.subperm hsub).perm_of_length_le (hcount ▸ hle)
    refine ⟨allSigned_iff.mpr ⟨?_, hperm.nodup_iff.mp m.nodup_signatures⟩, fun s ↦ ?_⟩
    · rw [← hperm.length_eq, hcount]
    · rw [← mem_signatures, hperm.mem_iff, mem_reduceOption_signatures]
  · intro h
    obtain ⟨hall, hnodup⟩ := allSigned_iff.mp h.signed
    have hperm : m.signatures.Perm (g.nodes.map Node.signature).toList.reduceOption := by
      rw [List.perm_ext_iff_of_nodup m.nodup_signatures hnodup]
      intro s
      rw [mem_signatures, mem_reduceOption_signatures, h.keys]
    refine ⟨?_, fun s n hn ↦ (h.keys s).mp ⟨n, hn⟩⟩
    rw [← length_signatures, hperm.length_eq, hall, hlength]

/-- A previous instruction is used by one instruction of the graph and by no other. -/
theorem Pairs.existsUnique (h : m.Pairs g) {s : String} {n : Node} (hn : m.get? s = some n) :
    ∃! id, ∃ k, g.node? id = some k ∧ k.signature = some s := by
  obtain ⟨k, hk, hsig⟩ := (h.keys s).mp ⟨n, hn⟩
  obtain ⟨id, hid⟩ := Array.getElem?_of_mem hk
  refine ⟨id, ⟨k, hid, hsig⟩, ?_⟩
  rintro id' ⟨k', hid', hsig'⟩
  have hat := hsig ▸ FlowGraph.getElem?_signatures hid
  have hat' := hsig' ▸ FlowGraph.getElem?_signatures hid'
  obtain ⟨hlt, -⟩ := List.getElem?_eq_some_iff.mp hat'
  exact (List.getElem?_inj hlt h.signed.2).mp (hat'.trans hat.symm)

end Imprint

/-! ## Spans -/

namespace ProbeSpan

/-- Neither run uses a probe, or the probes of both spread over equally many ids. -/
inductive EquallyWide : Option ProbeSpan → Option ProbeSpan → Prop
  | absent : EquallyWide none none
  | present {s t : ProbeSpan} (h : s.last - s.first = t.last - t.first) :
      EquallyWide (some s) (some t)

variable {a b : Option ProbeSpan}

theorem widthOf_eq_ok (h : ∀ s, a = some s → s.last - s.first + 1 < probeBound) :
    widthOf a = .ok (a.elim 0 fun s ↦ s.last - s.first + 1) := by
  cases a with
  | none => rfl
  | some s => exact width_eq_ok (h s rfl)

theorem equallyWide_iff : EquallyWide a b ↔
    (a.elim 0 fun s ↦ s.last - s.first + 1) = b.elim 0 fun s ↦ s.last - s.first + 1 := by
  constructor
  · rintro (_ | h)
    · rfl
    · exact congrArg (· + 1) h
  · intro h
    rcases a with _ | s <;> rcases b with _ | t
    · exact .absent
    · cases h
    · cases h
    · exact .present (Nat.succ.inj h)

theorem alignSpans_eq_ok_iff {className method : String} {spans : Option (ProbeSpan × ProbeSpan)}
    (ha : ∀ s, a = some s → s.last - s.first + 1 < probeBound)
    (hb : ∀ s, b = some s → s.last - s.first + 1 < probeBound) :
    alignSpans className method a b = .ok spans ↔
      EquallyWide a b ∧ spans = a.bind fun s ↦ b.map (s, ·) := by
  rw [alignSpans_eq_bind, widthOf_eq_ok ha, widthOf_eq_ok hb, equallyWide_iff]
  change (if _ then Except.ok _ else Except.error _) = _ ↔ _
  split
  next h => simp [h, eq_comm]
  next h => simp [h]

end ProbeSpan

namespace MethodRun

variable {className method : String} {m : Imprint} {previousProbes : Option (Array Bool)}
  {run : MethodRun}

/-- Where both runs have an array and use probes, the arrays reach as far as the spans. -/
def InBounds (m : Imprint) (previousProbes : Option (Array Bool)) (run : MethodRun) : Prop :=
  ∀ p q s t, run.probes = some p → previousProbes = some q → run.graph.probeSpan = some s →
    m.probeSpan = some t → s.last < p.size ∧ t.last < q.size

theorem exists_firedBy_iff :
    (∃ fired, firedBy (run.graph.probeSpan.bind fun s ↦ m.probeSpan.map (s, ·))
      (run.probes.map (·.size)) previousProbes = .ok fired) ↔ InBounds m previousProbes run := by
  constructor
  · rintro ⟨fired, hfired⟩ p q s t hp hq hs ht
    simp only [hp, hq, hs, ht, Option.bind_some, Option.map_some, firedBy] at hfired
    split at hfired
    · cases hfired
    · split at hfired
      · cases hfired
      · omega
  · intro h
    cases hfired : firedBy (run.graph.probeSpan.bind fun s ↦ m.probeSpan.map (s, ·))
      (run.probes.map (·.size)) previousProbes with
    | ok fired => exact ⟨fired, rfl⟩
    | error e =>
      obtain ⟨s, t, k, q, hspans, hsize, hq, herror⟩ := cases_of_firedBy_error hfired
      simp only [Option.bind_eq_some_iff, Option.map_eq_some_iff, Prod.mk.injEq] at hspans hsize
      obtain ⟨_, hs, _, ht, rfl, rfl⟩ := hspans
      obtain ⟨p, hp, rfl⟩ := hsize
      have hbounds := h p q _ _ hp hq hs ht
      omega

theorem firedBy_eq_ok {s t : ProbeSpan} {k : Nat} {q : Array Bool} (h : s.last < k)
    (h' : t.last < q.size) : firedBy (some (s, t)) (some k) (some q) =
      .ok fun i ↦ s.contains i && q.getD (t.first + (i - s.first)) false := by
  rw [firedBy, if_neg (Nat.not_le.mpr h), if_neg (Nat.not_le.mpr h')]

theorem firedBy_of_absent {spans : Option (ProbeSpan × ProbeSpan)} {size : Option Nat}
    (h : spans = none ∨ size = none ∨ previousProbes = none) :
    firedBy spans size previousProbes = .ok fun _ ↦ false := by
  rcases h with rfl | rfl | rfl
  · rfl
  · cases spans <;> rfl
  · cases spans <;> cases size <;> rfl

/-- A merge that passes its checks gathers what the imprint and the previous array have to add. -/
theorem run_merge_of_matches {spans : Option (ProbeSpan × ProbeSpan)} {fired : Nat → Bool}
    (hmatches : m.Matches run.graph)
    (halign : alignSpans className method run.graph.probeSpan m.probeSpan = .ok spans)
    (hfired : firedBy spans (run.probes.map (·.size)) previousProbes = .ok fired) :
    (merge className method (some m) previousProbes).run run =
      .ok .merged (run.gather ⟨Gain.ofImprint m, fired⟩) := by
  obtain ⟨hsize, hmissing⟩ := Imprint.matches_iff.mp hmatches
  exact run_merge_eq_merged hsize hmissing halign hfired

theorem answer_merge_eq_merged_iff :
    (merge className method (some m) previousProbes).answer run = .ok .merged ↔
      m.Matches run.graph ∧ ∃ spans,
        alignSpans className method run.graph.probeSpan m.probeSpan = .ok spans ∧
        ∃ fired, firedBy spans (run.probes.map (·.size)) previousProbes = .ok fired := by
  constructor
  · intro h
    rw [answer_merge] at h
    cases hverdict : verdict className method (some m) previousProbes run with
    | error e =>
      rw [hverdict] at h
      cases h
    | ok v =>
      obtain ⟨outcome, gain⟩ := v
      rw [hverdict] at h
      obtain rfl : outcome = .merged := Except.ok.inj h
      obtain ⟨hne, -⟩ | ⟨_, spans, fired, heq, hsize, hmissing, halign, hfired, -, -⟩ :=
        verdict_cases hverdict
      · exact absurd rfl hne
      · cases heq
        exact ⟨Imprint.matches_iff.mpr ⟨hsize, hmissing⟩, spans, halign, fired, hfired⟩
  · rintro ⟨hmatches, spans, halign, fired, hfired⟩
    rw [Update.answer, run_merge_of_matches hmatches halign hfired]

/-- What is left when the imprint was merged: each instruction has gained what the one under its
signature had taken, and each probe of the span what its counterpart had seen. -/
structure Combines (m : Imprint) (previousProbes : Option (Array Bool)) (run run' : MethodRun) :
    Prop where
  outline : run'.graph.outline = run.graph.outline
  covered : ∀ id n, run.graph.node? id = some n → ∃ s prior n', n.signature = some s ∧
    m.get? s = some prior ∧ run'.graph.node? id = some n' ∧ n'.covered = n.covered ∪ prior.covered
  once : ∀ s prior, m.get? s = some prior →
    ∃! id, ∃ n, run.graph.node? id = some n ∧ n.signature = some s
  fired : ∀ p q s t, run.probes = some p → previousProbes = some q →
    run.graph.probeSpan = some s → m.probeSpan = some t →
    ∃ p', run'.probes = some p' ∧ p'.size = p.size ∧
      (∀ k, s.first + k ≤ s.last → p'.getD (s.first + k) false =
        (p.getD (s.first + k) false || q.getD (t.first + k) false)) ∧
      ∀ i, i < s.first ∨ s.last < i → p'[i]? = p[i]?
  kept : run.probes = none ∨ previousProbes = none ∨ run.graph.probeSpan = none →
    run'.probes = run.probes

theorem combines_gather {spans : Option (ProbeSpan × ProbeSpan)} {fired : Nat → Bool}
    (hpairs : m.Pairs run.graph) (hbounds : InBounds m previousProbes run)
    (hspans : spans = run.graph.probeSpan.bind fun s ↦ m.probeSpan.map (s, ·))
    (hfired : firedBy spans (run.probes.map (·.size)) previousProbes = .ok fired) :
    Combines m previousProbes run (run.gather ⟨Gain.ofImprint m, fired⟩) where
  outline := by
    rw [FlowGraph.outline, FlowGraph.outline, gather, Gain.outlines_coverAll]
  covered id n hn := by
    have hmem : n ∈ run.graph.nodes := Array.mem_of_getElem? hn
    cases hs : n.signature with
    | none =>
      refine absurd ?_ hpairs.signed.1
      rw [Array.mem_toList_iff, Array.mem_map]
      exact ⟨n, hmem, hs⟩
    | some s =>
      obtain ⟨prior, hprior⟩ := (hpairs.keys s).mpr ⟨n, hmem, hs⟩
      refine ⟨s, prior, Gain.cover ⟨Gain.ofImprint m, fired⟩ n, rfl, hprior, ?_, ?_⟩
      · replace hn : run.graph.nodes[id]? = some n := hn
        simp [FlowGraph.node?, gather, Gain.coverAll, hn]
      · simp [Gain.cover, Gain.ofImprint, hs, hprior]
  once s prior hprior := hpairs.existsUnique hprior
  fired p q s t hp hq hs ht := by
    obtain ⟨hlast, hlast'⟩ := hbounds p q s t hp hq hs ht
    rw [hspans, hp, hq, hs, ht] at hfired
    replace hfired := (firedBy_eq_ok hlast hlast').symm.trans hfired
    obtain rfl := Except.ok.inj hfired
    refine ⟨_, congrArg (Option.map _) hp, Gain.size_fire _ p, fun k hk ↦ ?_, fun i hi ↦ ?_⟩
    · have hlt : s.first + k < p.size := by omega
      have hinside : s.contains (s.first + k) = true := by simp [ProbeSpan.contains, hk]
      rw [Bool.eq_iff_iff, getD_fire, Bool.or_eq_true]
      simp [hinside, hlt]
    · have houtside : s.contains i = false := by
        simp only [ProbeSpan.contains, Bool.and_eq_false_iff, decide_eq_false_iff_not]
        omega
      simp [Gain.getElem?_fire, houtside]
  kept h := by
    have hnone : fired = fun _ ↦ false := by
      refine Except.ok.inj (hfired.symm.trans (firedBy_of_absent ?_))
      rcases h with h | h | h
      · exact Or.inr (Or.inl (congrArg (Option.map _) h))
      · exact Or.inr (Or.inr h)
      · exact Or.inl (by rw [hspans, h, Option.bind_none])
    rw [gather, hnone]
    cases run.probes with
    | none => rfl
    | some p => exact congrArg some (Gain.fire_nothing p)

/-- A merge takes place exactly if the signatures match one to one, both spans are equally wide and
the arrays reach as far as the spans; and then it combines the two runs. -/
theorem merge_eq_merged_iff_pairs
    (hs : ∀ s, run.graph.probeSpan = some s → s.last - s.first + 1 < probeBound)
    (ht : ∀ t, m.probeSpan = some t → t.last - t.first + 1 < probeBound)
    (className method : String) :
    ((merge className method (some m) previousProbes).answer run = .ok .merged ↔
      m.Pairs run.graph ∧ ProbeSpan.EquallyWide run.graph.probeSpan m.probeSpan ∧
        InBounds m previousProbes run) ∧
    ((merge className method (some m) previousProbes).answer run = .ok .merged →
      Combines m previousProbes run
        ((merge className method (some m) previousProbes).final run)) := by
  have hiff : (merge className method (some m) previousProbes).answer run = .ok .merged ↔
      m.Pairs run.graph ∧ ProbeSpan.EquallyWide run.graph.probeSpan m.probeSpan ∧
        InBounds m previousProbes run := by
    simp only [answer_merge_eq_merged_iff, Imprint.matches_iff_pairs,
      ProbeSpan.alignSpans_eq_ok_iff hs ht, and_assoc, exists_and_left, exists_eq_left,
      exists_firedBy_iff]
  refine ⟨hiff, fun h ↦ ?_⟩
  obtain ⟨hmatches, spans, halign, fired, hfired⟩ := answer_merge_eq_merged_iff.mp h
  obtain ⟨hpairs, -, hbounds⟩ := hiff.mp h
  rw [Update.final, run_merge_of_matches hmatches halign hfired]
  exact combines_gather hpairs hbounds (ProbeSpan.eq_of_alignSpans halign) hfired

/-- In the previous run the probes of the method came three later, and the other way was taken. -/
theorem merge_eq_merged_iff_pairs_probed :
    ∃ g g' m, FlowGraph.ofEvents (some #[true, false, false]) (twoWay 0) = .ok g ∧
      FlowGraph.ofEvents (some #[true, true, true, false, true]) (twoWay 3) = .ok g' ∧
      g'.imprint? = some m ∧
      let run : MethodRun := ⟨g, some #[true, false, false]⟩
      let previous := some #[true, true, true, false, true]
      m.Pairs run.graph ∧ ProbeSpan.EquallyWide run.graph.probeSpan m.probeSpan ∧
        InBounds m previous run ∧
        (merge "A" "m" (some m) previous).answer run = .ok .merged ∧
        Combines m previous run ((merge "A" "m" (some m) previous).final run) ∧
        ((merge "A" "m" (some m) previous).final run).probes = some #[true, true, false] := by
  obtain ⟨g, hg⟩ : ∃ g, FlowGraph.ofEvents (some #[true, false, false]) (twoWay 0) = .ok g :=
    exists_eq_ok (by decide +kernel)
  obtain ⟨g', hg'⟩ : ∃ g,
      FlowGraph.ofEvents (some #[true, true, true, false, true]) (twoWay 3) = .ok g :=
    exists_eq_ok (by decide +kernel)
  have hall : (do
      let g ← FlowGraph.ofEvents (some #[true, false, false]) (twoWay 0)
      let g' ← FlowGraph.ofEvents (some #[true, true, true, false, true]) (twoWay 3)
      let u := merge "A" "m" g'.imprint? (some #[true, true, true, false, true])
      return (g'.imprint?.isSome, u.answer ⟨g, some #[true, false, false]⟩,
        (u.final ⟨g, some #[true, false, false]⟩).probes)) =
      .ok (true, .ok .merged, some #[true, true, false]) := by decide +kernel
  rw [hg, hg'] at hall
  obtain ⟨hsigned, hall⟩ := Prod.mk.inj (Except.ok.inj hall)
  obtain ⟨hmerge, hprobes⟩ := Prod.mk.inj hall
  obtain ⟨m, hm⟩ := Option.isSome_iff_exists.mp hsigned
  rw [hm] at hmerge hprobes
  have hword : 5 < probeBound := by decide
  have hs : ∀ s, g.probeSpan = some s → s.last - s.first + 1 < probeBound := fun s hs ↦ by
    have hlt : s.last < 3 := last_lt_size hg hs
    omega
  have ht : ∀ t, m.probeSpan = some t → t.last - t.first + 1 < probeBound := fun t ht ↦ by
    have hlt : t.last < 5 :=
      readable_some.mp (FlowGraph.readable_of_ofEvents hg' (uses_last_imprint hg' hm ht))
    omega
  have hiff := @merge_eq_merged_iff_pairs m (some #[true, true, true, false, true])
    ⟨g, some #[true, false, false]⟩ hs ht "A" "m"
  obtain ⟨hpairs, hwide, hbounds⟩ := hiff.1.mp hmerge
  exact ⟨g, g', m, hg, hg', hm, hpairs, hwide, hbounds, hmerge, hiff.2 hmerge, hprobes⟩

end MethodRun

end ProbeCoverage
