import ProbeCoverage.Proofs.Rerun

/-!
# Spans that are too wide

The only numbers that a merge adds up are the widths of its spans. A probe id is a machine word, so
a width fits a machine word, too, unless its span holds all ids. A merge of two methods with the
same signatures does not return if one of their spans is such a span; every other merge has an
outcome or is refused for its spans or its arrays.
-/

namespace ProbeCoverage

theorem addBelow_eq_error_iff {bound a b : Nat} {e : Fault} :
    addBelow bound a b = .error e ↔ e = .overflow ∧ bound ≤ a + b := by
  unfold addBelow
  split
  next h => simp [h]
  next h => simp [Nat.not_lt.mp h, eq_comm]

namespace ProbeSpan

/-- The span holds all ids that there are. -/
structure Full (s : ProbeSpan) : Prop where
  first : s.first = 0
  last : s.last = probeBound - 1

variable {s : ProbeSpan} {a b : Option ProbeSpan} {className method : String} {e : Fault}

theorem width_eq_error_iff (h : s.last < probeBound) :
    s.width = .error e ↔ e = .overflow ∧ s.Full := by
  have hbound : 1 < probeBound := by decide
  rw [width, addBelow_eq_error_iff]
  refine and_congr_right fun _ ↦ ?_
  constructor
  · exact fun hwide ↦ ⟨by omega, by omega⟩
  · rintro ⟨hfirst, hlast⟩
    omega

theorem widthOf_eq_error_iff (h : ∀ s, a = some s → s.last < probeBound) :
    widthOf a = .error e ↔ e = .overflow ∧ ∃ s, a = some s ∧ s.Full := by
  cases a with
  | none => simp [widthOf]
  | some s => simp [widthOf, width_eq_error_iff (h s rfl)]

theorem alignSpans_eq_error_iff : alignSpans className method a b = .error e ↔
    widthOf a = .error e ∨ ∃ n, widthOf a = .ok n ∧ (widthOf b = .error e ∨
      ∃ n', widthOf b = .ok n' ∧ n ≠ n' ∧ e = .probeSpanMismatch className method n n') := by
  have hcheck : ∀ n n', (if n = n' then .ok (a.bind fun s ↦ b.map (s, ·))
      else .error (.probeSpanMismatch className method n n')) = Except.error e ↔
      n ≠ n' ∧ e = .probeSpanMismatch className method n n' := fun n n' ↦ by
    split
    next h => simp [h]
    next h => simp [h, eq_comm]
  simp only [alignSpans_eq_bind, bind_eq_error_iff, hcheck]

/-- Spans are refused for their widths, if these can be computed at all. -/
theorem cases_of_alignSpans_error (h : alignSpans className method a b = .error e) :
    e = .overflow ∨ ∃ n n', e = .probeSpanMismatch className method n n' := by
  have hwidth : ∀ {o : Option ProbeSpan}, widthOf o = .error e → e = .overflow := fun {o} ho ↦ by
    cases o with
    | none => cases ho
    | some s => exact (addBelow_eq_error_iff.mp ho).1
  rcases alignSpans_eq_error_iff.mp h with ha | ⟨n, -, hb | ⟨n', -, -, he⟩⟩
  · exact Or.inl (hwidth ha)
  · exact Or.inl (hwidth hb)
  · exact Or.inr ⟨n, n', he⟩

theorem alignSpans_eq_overflow_iff (ha : ∀ s, a = some s → s.last < probeBound)
    (hb : ∀ s, b = some s → s.last < probeBound) :
    alignSpans className method a b = .error .overflow ↔
      ∃ s, (a = some s ∨ b = some s) ∧ s.Full := by
  have hfull : ∀ {o : Option ProbeSpan}, (∀ s, o = some s → s.last < probeBound) →
      (widthOf o = .error .overflow ↔ ∃ s, o = some s ∧ s.Full) := fun h ↦ by
    simp [widthOf_eq_error_iff h]
  rw [alignSpans_eq_error_iff, hfull ha, hfull hb]
  constructor
  · rintro (⟨s, hs, h⟩ | ⟨n, -, ⟨t, ht, h⟩ | ⟨n', -, -, heq⟩⟩)
    · exact ⟨s, Or.inl hs, h⟩
    · exact ⟨t, Or.inr ht, h⟩
    · cases heq
  · rintro ⟨s, hs | hs, h⟩
    · exact Or.inl ⟨s, hs, h⟩
    · -- the width of the other side may be too large as well, and is computed first
      cases hn : widthOf a with
      | error f => exact Or.inl (((widthOf_eq_error_iff ha).mp hn).2)
      | ok n => exact Or.inr ⟨n, rfl, Or.inl ⟨s, hs, h⟩⟩

end ProbeSpan

/-- What a merge asks of the instructions: there are equally many, and every signature of the
imprint is one of the graph. -/
structure Imprint.Matches (m : Imprint) (g : FlowGraph) : Prop where
  size : m.size = g.size
  signatures : ∀ s n, m.get? s = some n → ∃ k ∈ g.nodes, k.signature = some s

theorem Imprint.matches_iff {m : Imprint} {g : FlowGraph} :
    m.Matches g ↔ m.size = g.size ∧ m.missingIn g = [] := by
  have hmem : ∀ s, some s ∈ (g.nodes.map Node.signature).toList ↔
      ∃ k ∈ g.nodes, k.signature = some s := fun s ↦ by
    rw [Array.mem_toList_iff, Array.mem_map]
  simp only [missingIn_eq_nil_iff, hmem]
  exact ⟨fun h ↦ ⟨h.size, h.signatures⟩, fun h ↦ ⟨h.1, h.2⟩⟩

section Words

variable {probes : Option (Array Bool)} {es : List Event} {g : FlowGraph}

/-- The probes that instructions keep are probes of the stream. -/
theorem uses_of_node_probe (hg : FlowGraph.ofEvents probes es = .ok g) {p : Nat}
    (hp : p ∈ g.nodes.toList.filterMap (·.probe)) : Stream.Uses es p := by
  obtain ⟨id, hid⟩ := (FlowGraph.mem_probes_ofEvents hg).mp hp
  exact Stream.uses_of_lastProbe? hid

theorem uses_last_probeSpan (hg : FlowGraph.ofEvents probes es = .ok g) {s : ProbeSpan}
    (hs : g.probeSpan = some s) : Stream.Uses es s.last :=
  uses_of_node_probe hg (spans_probeSpan hs).last_mem

theorem uses_last_imprint (hg : FlowGraph.ofEvents probes es = .ok g) {m : Imprint}
    (hm : g.imprint? = some m) {t : ProbeSpan} (ht : m.probeSpan = some t) :
    Stream.Uses es t.last :=
  uses_of_node_probe hg (Imprint.probes_of_probeSpan hm ht).2

end Words

namespace MethodRun

variable {className method : String} {previous : Option Imprint} {m : Imprint}
  {previousProbes : Option (Array Bool)} {run : MethodRun} {e : Fault}

theorem answer_merge_eq_error_iff :
    (merge className method previous previousProbes).answer run = .error e ↔
      verdict className method previous previousProbes run = .error e := by
  rw [answer_merge]
  cases verdict className method previous previousProbes run <;> simp [Except.map]

theorem cases_of_answer_merge_error
    (h : (merge className method previous previousProbes).answer run = .error e) :
    e = .overflow ∨ (∃ n n', e = .probeSpanMismatch className method n n') ∨
      ∃ i n, e = .probeOutOfBounds i n := by
  rw [answer_merge_eq_error_iff, verdict_eq_error_iff] at h
  obtain ⟨m, -, -, -, halign | ⟨spans, -, hfired⟩⟩ := h
  · exact (ProbeSpan.cases_of_alignSpans_error halign).imp_right Or.inl
  · obtain ⟨s, t, k, q, -, -, -, ⟨-, rfl⟩ | ⟨-, rfl⟩⟩ := cases_of_firedBy_error hfired
    · exact Or.inr (Or.inr ⟨s.last, k, rfl⟩)
    · exact Or.inr (Or.inr ⟨t.last, q.size, rfl⟩)

theorem answer_merge_eq_overflow_iff
    (hs : ∀ s, run.graph.probeSpan = some s → s.last < probeBound)
    (ht : ∀ t, m.probeSpan = some t → t.last < probeBound) :
    (merge className method (some m) previousProbes).answer run = .error .overflow ↔
      m.Matches run.graph ∧
        ∃ s, (run.graph.probeSpan = some s ∨ m.probeSpan = some s) ∧ s.Full := by
  rw [answer_merge_eq_error_iff, verdict_eq_error_iff]
  simp only [Option.some.injEq, exists_eq_left', ProbeSpan.alignSpans_eq_overflow_iff hs ht]
  rw [← and_assoc, ← Imprint.matches_iff]
  refine and_congr_right fun _ ↦ or_iff_left ?_
  rintro ⟨spans, -, hfired⟩
  obtain ⟨s, t, k, q, -, -, -, ⟨-, he⟩ | ⟨-, he⟩⟩ := cases_of_firedBy_error hfired
  · cases he
  · cases he

variable {probes probes' : Option (Array Bool)} {es es' : List Event} {g g' : FlowGraph}

/-- Methods that were recorded with probe arrays span less than all ids, so their merge returns. -/
theorem answer_merge_ne_overflow {p q : Array Bool}
    (hg : FlowGraph.ofEvents (some p) es = .ok g) (hg' : FlowGraph.ofEvents (some q) es' = .ok g')
    (hp : p.size < probeBound) (hq : q.size < probeBound) (className method : String)
    (array previousArray : Option (Array Bool)) :
    (merge className method g'.imprint? previousArray).answer ⟨g, array⟩ ≠ .error .overflow := by
  cases hm : g'.imprint? with
  | none => simp [answer_merge, verdict, Except.map]
  | some m =>
    have hs : ∀ s, g.probeSpan = some s → s.last < p.size := fun s ↦ last_lt_size hg
    have ht : ∀ t, m.probeSpan = some t → t.last < q.size := fun t ht ↦
      readable_some.mp (FlowGraph.readable_of_ofEvents hg' (uses_last_imprint hg' hm ht))
    have hiff := @answer_merge_eq_overflow_iff className method m previousArray ⟨g, array⟩
      (fun s h ↦ Nat.lt_trans (hs s h) hp) (fun t h ↦ Nat.lt_trans (ht t h) hq)
    rw [Ne, hiff]
    rintro ⟨-, s, hspan | hspan, hfull⟩
    · have hlt := hs s hspan
      rw [hfull.last] at hlt
      omega
    · have hlt := ht s hspan
      rw [hfull.last] at hlt
      omega

/-- A merge of two methods does not return exactly if their signatures agree and one of them spans
all ids. Otherwise it has an outcome, or is refused for its spans or its arrays. -/
theorem merge_overflows_iff (hg : FlowGraph.ofEvents probes es = .ok g)
    (hg' : FlowGraph.ofEvents probes' es' = .ok g')
    (hwords : ∀ i, Stream.Uses es i → i < probeBound)
    (hwords' : ∀ i, Stream.Uses es' i → i < probeBound)
    (className method : String) (array previousArray : Option (Array Bool)) :
    ((merge className method g'.imprint? previousArray).answer ⟨g, array⟩ = .error .overflow ↔
      ∃ m, g'.imprint? = some m ∧ m.Matches g ∧
        ∃ s, (g.probeSpan = some s ∨ m.probeSpan = some s) ∧ s.Full) ∧
    ∀ e, (merge className method g'.imprint? previousArray).answer ⟨g, array⟩ = .error e →
      e = .overflow ∨ (∃ n n', e = .probeSpanMismatch className method n n') ∨
        ∃ i n, e = .probeOutOfBounds i n := by
  refine ⟨?_, fun e ↦ cases_of_answer_merge_error⟩
  cases hm : g'.imprint? with
  | none => simp [answer_merge, verdict, Except.map]
  | some m =>
    have hs : ∀ s, g.probeSpan = some s → s.last < probeBound := fun s hs ↦
      hwords _ (uses_last_probeSpan hg hs)
    have ht : ∀ t, m.probeSpan = some t → t.last < probeBound := fun t ht ↦
      hwords' _ (uses_last_imprint hg' hm ht)
    simpa using @answer_merge_eq_overflow_iff className method m previousArray ⟨g, array⟩ hs ht

/-- Two instructions without jumps, with the first id and with another one. -/
def spanning (last : Nat) : List Event :=
  [.instruction ⟨0⟩ (some "load"), .probe 0 0, .instruction ⟨1⟩ (some "return"), .probe last 0,
    .endMethod]

theorem uses_spanning {last i : Nat} (h : Stream.Uses (spanning last) i) : i = 0 ∨ i = last := by
  obtain ⟨b, hb⟩ := h
  simp only [spanning, List.mem_cons, Event.probe.injEq, reduceCtorEq, List.not_mem_nil, or_false,
    false_or] at hb
  exact hb.imp And.left And.left

/-- One id less, and the merge is refused for the widths of its spans. -/
theorem merge_overflows_iff_spanning :
    ∃ g g', FlowGraph.ofEvents none (spanning (probeBound - 2)) = .ok g ∧
      FlowGraph.ofEvents (some #[true, true]) (spanning 1) = .ok g' ∧
      (∀ i, Stream.Uses (spanning (probeBound - 2)) i → i < probeBound) ∧
      (∀ i, Stream.Uses (spanning 1) i → i < probeBound) ∧
      (merge "A" "m" g'.imprint? (some #[true, true])).answer ⟨g, none⟩ =
        .error (.probeSpanMismatch "A" "m" (probeBound - 1) 2) ∧
      ¬ ∃ m, g'.imprint? = some m ∧ m.Matches g ∧
        ∃ s, (g.probeSpan = some s ∨ m.probeSpan = some s) ∧ s.Full := by
  obtain ⟨g, hg⟩ : ∃ g, FlowGraph.ofEvents none (spanning (probeBound - 2)) = .ok g :=
    exists_eq_ok (by decide +kernel)
  obtain ⟨g', hg'⟩ : ∃ g, FlowGraph.ofEvents (some #[true, true]) (spanning 1) = .ok g :=
    exists_eq_ok (by decide +kernel)
  have hwords : ∀ i, Stream.Uses (spanning (probeBound - 2)) i → i < probeBound := fun i hi ↦ by
    rcases uses_spanning hi with rfl | rfl <;> decide
  have hwords' : ∀ i, Stream.Uses (spanning 1) i → i < probeBound := fun i hi ↦ by
    rcases uses_spanning hi with rfl | rfl <;> decide
  have hanswer : (do
      let g ← FlowGraph.ofEvents none (spanning (probeBound - 2))
      let g' ← FlowGraph.ofEvents (some #[true, true]) (spanning 1)
      return (merge "A" "m" g'.imprint? (some #[true, true])).answer ⟨g, none⟩) =
        .ok (.error (.probeSpanMismatch "A" "m" (probeBound - 1) 2)) := by decide +kernel
  rw [hg, hg'] at hanswer
  replace hanswer : (merge "A" "m" g'.imprint? (some #[true, true])).answer ⟨g, none⟩ =
    .error (.probeSpanMismatch "A" "m" (probeBound - 1) 2) := Except.ok.inj hanswer
  refine ⟨g, g', hg, hg', hwords, hwords', hanswer, fun hfull ↦ ?_⟩
  have hoverflow :=
    (merge_overflows_iff hg hg' hwords hwords' "A" "m" none (some #[true, true])).1.mpr hfull
  rw [hanswer] at hoverflow
  cases hoverflow

/-- The current method uses no probe and the previous one all ids: the merge has to be refused for
its spans, but the width that the message is to name is not a machine word. -/
theorem merge_overflows_unprobed :
    (do
      let g ← FlowGraph.ofEvents none [.instruction ⟨0⟩ (some "load"),
        .instruction ⟨1⟩ (some "return"), .endMethod]
      let g' ← FlowGraph.ofEvents none (spanning (probeBound - 1))
      return (merge "A" "m" g'.imprint? none).answer ⟨g, none⟩) = .ok (.error .overflow) := by
  decide +kernel

end MethodRun

end ProbeCoverage
