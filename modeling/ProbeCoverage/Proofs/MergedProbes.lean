import ProbeCoverage.Proofs.Rerun

/-!
# The probes that a merge fires

An instruction keeps the last of its probes only, and the span of a method is taken of the probes
that were kept. A merge of two runs of the same code fires the probes inside the span; a probe
outside of it, even one that fired in the previous run, is left as it was.
-/

namespace ProbeCoverage

namespace MethodRun

variable {p q : Array Bool} {es : List Event} {g g' : FlowGraph}

/-- Merging two runs of the same code keeps all fired probes of the code exactly if those that
only the previous run fired lie between kept probes. -/
theorem merge_keeps_fired_iff (hp : FlowGraph.ofEvents (some p) es = .ok g)
    (hq : FlowGraph.ofEvents (some q) es = .ok g') (hword : p.size < probeBound)
    (hsigned : AllSigned (Stream.signatures es))
    (className method : String) :
    ∃ m run p', g'.imprint? = some m ∧
      (merge className method (some m) (some q)).run ⟨g, some p⟩ = .ok .merged run ∧
      run.probes = some p' ∧
      ((∀ i, Stream.Uses es i → p'.getD i false = (p.getD i false || q.getD i false)) ↔
        ∀ i, Stream.Uses es i → p.getD i false = false → q.getD i false = true →
          Stream.Kept es i) := by
  obtain ⟨m, fired, hm, -, hmerge, hfires⟩ :=
    exists_merge (Restates.same es) hp hq hword hsigned className method
  refine ⟨m, _, _, hm, hmerge, rfl, forall_congr' fun i ↦ imp_congr_right fun _ ↦ ?_⟩
  rw [Bool.eq_iff_iff, getD_fire, hfires i, Renaming.probe_same, Bool.or_eq_true]
  cases p.getD i false <;> cases q.getD i false <;> simp

/-- One instruction with two probes, of which it keeps the second. -/
def twoProbes : List Event :=
  [.instruction ⟨0⟩ (some "if"), .probe 1 0, .probe 0 1, .endMethod]

theorem merge_keeps_fired_iff_twoProbes :
    ∃ g g' m run p', FlowGraph.ofEvents (some #[false, false]) twoProbes = .ok g ∧
      FlowGraph.ofEvents (some #[true, false]) twoProbes = .ok g' ∧ g'.imprint? = some m ∧
      (merge "A" "m" (some m) (some #[true, false])).run ⟨g, some #[false, false]⟩ =
        .ok .merged run ∧
      run.probes = some p' ∧
      ∀ i, Stream.Uses twoProbes i →
        p'.getD i false = (#[false, false].getD i false || #[true, false].getD i false) := by
  have hp : ∃ g, FlowGraph.ofEvents (some #[false, false]) twoProbes = .ok g :=
    exists_eq_ok (by decide +kernel)
  have hq : ∃ g, FlowGraph.ofEvents (some #[true, false]) twoProbes = .ok g :=
    exists_eq_ok (by decide +kernel)
  obtain ⟨g, hg⟩ := hp
  obtain ⟨g', hg'⟩ := hq
  obtain ⟨m, run, p', hm, hmerge, hprobes, hiff⟩ := merge_keeps_fired_iff hg hg'
    (by decide) ⟨by decide, by decide⟩ "A" "m"
  refine ⟨g, g', m, run, p', hg, hg', hm, hmerge, hprobes, hiff.mpr fun i hi _ hfire ↦ ?_⟩
  obtain ⟨b, hb⟩ := hi
  simp only [twoProbes, List.mem_cons, Event.probe.injEq, reduceCtorEq, List.not_mem_nil,
    or_false, false_or] at hb
  rcases hb with ⟨rfl, -⟩ | ⟨rfl, -⟩
  · exact absurd hfire (by decide)
  · exact ⟨0, ⟨0, by decide⟩, 0, ⟨0, by decide⟩, Nat.le_refl 0, Nat.le_refl 0⟩

/-- The other probe of the instruction is lost, although the previous run fired it. -/
theorem merge_loses_probe_twoProbes :
    (do
      let g ← FlowGraph.ofEvents (some #[false, false]) twoProbes
      let g' ← FlowGraph.ofEvents (some #[false, true]) twoProbes
      let u := merge "A" "m" g'.imprint? (some #[false, true])
      return (u.answer ⟨g, some #[false, false]⟩, (u.final ⟨g, some #[false, false]⟩).probes)) =
        .ok (.ok .merged, some #[false, false]) ∧
      Stream.Uses twoProbes 1 ∧
      #[false, false].getD 1 false ≠
        (#[false, false].getD 1 false || #[false, true].getD 1 false) := by
  refine ⟨?_, ⟨0, by decide⟩, by decide⟩
  decide +kernel

end MethodRun

end ProbeCoverage
