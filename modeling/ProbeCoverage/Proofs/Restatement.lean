import ProbeCoverage.Proofs.Additivity

/-!
# Restated streams

The same code may be recorded again with other line numbers, with new names for instructions and
labels, and with all its probes moved by one distance. The graph that comes out differs in lines
and in the probes that the instructions keep. What it covers is what the first graph covers, as long
as the moved probes fired where the others did.
-/

namespace ProbeCoverage

/-- New names for instructions and labels, and the distance between the probes. -/
structure Renaming where
  handle : Handle → Handle
  label : Label → Label
  shift : Int
  handle_injective : Function.Injective handle
  label_injective : Function.Injective label

namespace Renaming

def probe (ρ : Renaming) (p : Nat) : Nat := (p + ρ.shift).toNat

def jump (ρ : Renaming) (j : Jump) : Jump := { j with target := ρ.label j.target }

def mark (ρ : Renaming) (m : Label × NodeId) : Label × NodeId := (ρ.label m.1, m.2)

def site (ρ : Renaming) (p : Branch × Nat) : Branch × Nat := (p.1, ρ.probe p.2)

end Renaming

inductive Renames (ρ : Renaming) : Event → Event → Prop
  | label (l : Label) (s : Bool) : Renames ρ (.label l s) (.label (ρ.label l) s)
  | instruction (h : Handle) (s : Option String) :
    Renames ρ (.instruction h s) (.instruction (ρ.handle h) s)
  | jump (l : Label) (b : Nat) : Renames ρ (.jump l b) (.jump (ρ.label l) b)
  | probe {p : Nat} (b : Nat) : 0 ≤ p + ρ.shift → Renames ρ (.probe p b) (.probe (ρ.probe p) b)
  | noSuccessor : Renames ρ .noSuccessor .noSuccessor
  | endMethod : Renames ρ .endMethod .endMethod

/-- The second stream says what the first one does, except for the lines. -/
inductive Restates (ρ : Renaming) : List Event → List Event → Prop
  | nil : Restates ρ [] []
  | line {es es' : List Event} (n : Nat) : Restates ρ es es' → Restates ρ (.line n :: es) es'
  | lineAgain {es es' : List Event} (n : Nat) : Restates ρ es es' → Restates ρ es (.line n :: es')
  | cons {e e' : Event} {es es' : List Event} :
    Renames ρ e e' → Restates ρ es es' → Restates ρ (e :: es) (e' :: es')

namespace Renaming

def same : Renaming := ⟨id, id, 0, fun _ _ ↦ id, fun _ _ ↦ id⟩

@[simp] theorem probe_same (p : Nat) : same.probe p = p := by
  simp [probe, same]

end Renaming

theorem Restates.same (es : List Event) : Restates .same es es := by
  induction es with
  | nil => exact .nil
  | cons e es ih =>
    cases e with
    | line n => exact .line n (.lineAgain n ih)
    | label l s => exact .cons (.label l s) ih
    | instruction h s => exact .cons (.instruction h s) ih
    | jump l b => exact .cons (.jump l b) ih
    | probe p b =>
      have hprobe := @Renames.probe .same p b (by simp [Renaming.same])
      rw [Renaming.probe_same] at hprobe
      exact .cons hprobe ih
    | noSuccessor => exact .cons .noSuccessor ih
    | endMethod => exact .cons .endMethod ih

/-- A probe that the stream uses is moved to a probe. -/
theorem Restates.probe_eq {ρ : Renaming} {es es' : List Event} (h : Restates ρ es es') {p : Nat}
    (hp : Stream.Uses es p) : (ρ.probe p : Int) = p + ρ.shift := by
  obtain ⟨b, hb⟩ := hp
  induction h with
  | nil => cases hb
  | line n _ ih => exact ih (List.mem_of_ne_of_mem (by simp) hb)
  | lineAgain n _ ih => exact ih hb
  | cons he _ ih =>
    rcases List.mem_cons.mp hb with rfl | hb
    · cases he with
      | probe b hnonneg => exact Int.toNat_of_nonneg hnonneg
    · exact ih hb

/-! ## Reading a restated stream -/

variable {ρ : Renaming} {es es' : List Event}

theorem Renames.advance {e e' : Event} (h : Renames ρ e e') (c : Cursor) :
    c.advance e' = c.advance e := by
  cases h with
  | label l s => cases s <;> rfl
  | _ => rfl

namespace Restates

theorem foldl_advance (h : Restates ρ es es') (c : Cursor) :
    es'.foldl Cursor.advance c = es.foldl Cursor.advance c := by
  induction h generalizing c with
  | nil => rfl
  | line n _ ih => exact ih c
  | lineAgain n _ ih => exact ih c
  | cons he _ ih =>
    rw [List.foldl_cons, List.foldl_cons, he.advance]
    exact ih _

theorem cursor_eq (h : Restates ρ es es') : Stream.cursor es' = Stream.cursor es :=
  h.foldl_advance {}

/-- What is read off single events is restated event by event. -/
theorem filterMap_sites {α : Type} {f : Cursor → Event → Option α} {g : α → α}
    (hline : ∀ c n, f c (.line n) = none)
    (hmap : ∀ c e e', Renames ρ e e' → f c e' = (f c e).map g) (h : Restates ρ es es')
    (c : Cursor) : (Stream.sitesFrom c es').filterMap (fun s ↦ f s.1 s.2) =
      ((Stream.sitesFrom c es).filterMap fun s ↦ f s.1 s.2).map g := by
  have hskip : ∀ c n sites, ((c, Event.line n) :: sites).filterMap (fun s ↦ f s.1 s.2) =
      sites.filterMap fun s ↦ f s.1 s.2 := by
    intro c n sites
    rw [List.filterMap_cons, hline]
  induction h generalizing c with
  | nil => rfl
  | line n _ ih =>
    rw [Stream.sitesFrom, hskip]
    exact ih c
  | lineAgain n _ ih =>
    rw [Stream.sitesFrom, hskip]
    exact ih c
  | @cons e e' es es' he _ ih =>
    have hrest := ih (c.advance e)
    rw [Stream.sitesFrom, Stream.sitesFrom, he.advance, List.filterMap_cons, List.filterMap_cons,
      hmap c e e' he, hrest]
    cases f c e <;> rfl

theorem probes_eq (h : Restates ρ es es') : Stream.probes es' = (Stream.probes es).map ρ.site := by
  refine filterMap_sites (f := Stream.probe?) (fun _ _ ↦ rfl) (fun c e e' he ↦ ?_) h {}
  cases he with
  | probe b hp => cases hc : c.current <;> simp [Stream.probe?, hc, Renaming.site]
  | _ => rfl

theorem jumps_eq (h : Restates ρ es es') : Stream.jumps es' = (Stream.jumps es).map ρ.jump := by
  refine filterMap_sites (f := Stream.jump?) (fun _ _ ↦ rfl) (fun c e e' he ↦ ?_) h {}
  cases he with
  | jump l b => cases hc : c.current <;> simp [Stream.jump?, hc, Renaming.jump]
  | _ => rfl

theorem marks_eq (h : Restates ρ es es') : Stream.marks es' = (Stream.marks es).map ρ.mark := by
  refine filterMap_sites (f := Stream.mark?) (fun _ _ ↦ rfl) (fun c e e' he ↦ ?_) h {}
  cases he <;> rfl

theorem signatures_eq (h : Restates ρ es es') : Stream.signatures es' = Stream.signatures es := by
  induction h with
  | nil => rfl
  | line n _ ih => exact ih
  | lineAgain n _ ih => exact ih
  | cons he _ ih =>
    rw [Stream.signatures, Stream.signatures, List.filterMap_cons, List.filterMap_cons,
      ← Stream.signatures, ← Stream.signatures, ih]
    cases he <;> rfl

theorem lookup_map_injective {f : Label → Label} (hf : Function.Injective f)
    (l : List (Label × NodeId)) (k : Label) :
    (l.map fun m ↦ (f m.1, m.2)).lookup (f k) = l.lookup k := by
  induction l with
  | nil => rfl
  | cons m l ih =>
    rw [List.map_cons, List.lookup_cons, List.lookup_cons, ih]
    by_cases hk : k = m.1
    · simp [hk]
    · have hfk : f k ≠ f m.1 := fun heq ↦ hk (hf heq)
      rw [beq_false_of_ne hk, beq_false_of_ne hfk]

theorem place?_eq (h : Restates ρ es es') (l : Label) :
    Stream.place? es' (ρ.label l) = Stream.place? es l := by
  have hplaced : Stream.placed es' = (Stream.placed es).map ρ.mark := by
    rw [Stream.placed, Stream.placed, h.marks_eq, h.cursor_eq, List.filter_map]
    rfl
  rw [Stream.place?, Stream.place?, hplaced, ← List.map_reverse]
  exact lookup_map_injective ρ.label_injective _ l

theorem jumpEdges_eq (h : Restates ρ es es') :
    (Stream.jumps es').filterMap (Stream.edgeOf? es') =
      (Stream.jumps es).filterMap (Stream.edgeOf? es) := by
  rw [h.jumps_eq, List.filterMap_map]
  apply List.filterMap_congr
  intro j _
  rw [Function.comp, Stream.edgeOf?, Stream.edgeOf?, Renaming.jump, h.place?_eq]

theorem lastProbe?_eq (h : Restates ρ es es') (id : NodeId) :
    Stream.lastProbe? es' id = (Stream.lastProbe? es id).map ρ.probe := by
  rw [Stream.lastProbe?, Stream.lastProbe?, h.probes_eq, List.filter_map, List.getLast?_map,
    Option.map_map, Option.map_map]
  rfl

end Restates

/-! ## Nodes without lines and probes -/

def Node.bare (n : Node) : Node := { n with line := none, probe := none }

def bares (nodes : Array Node) : Array Node := nodes.map Node.bare

theorem size_bares (nodes : Array Node) : (bares nodes).size = nodes.size := Array.size_map

theorem mark_bares (nodes : Array Node) (b : Branch) :
    mark (bares nodes) b = (bares (mark nodes b).1, (mark nodes b).2) := by
  unfold mark
  rw [bares, Array.getElem?_map]
  cases nodes[b.node]? with
  | none => rfl
  | some n =>
    simp only [Option.map_some, bares, Array.map_setIfInBounds]
    rfl

/-- Spreading looks neither at lines nor at probes. -/
theorem spread_bares (nodes : Array Node) (b : Branch) :
    spread (bares nodes) b = bares (spread nodes b) := by
  fun_induction spread nodes b with
  | case1 nodes b marked h =>
    have hm : mark (bares nodes) b = (bares marked, none) := by rw [mark_bares, h]
    rw [spread]
    split
    next heq => rw [hm] at heq; cases heq; rfl
    next heq => rw [hm] at heq; cases heq
  | case2 nodes b marked c h ih =>
    have hm : mark (bares nodes) b = (bares marked, some c) := by rw [mark_bares, h]
    rw [spread]
    split
    next heq => rw [hm] at heq; cases heq
    next heq => rw [hm] at heq; cases heq; exact ih

theorem bares_spreadIf (taken : Bool) (nodes : Array Node) (b : Branch) :
    bares (spreadIf taken nodes b) = spreadIf taken (bares nodes) b := by
  cases taken with
  | false => rfl
  | true => exact (spread_bares nodes b).symm

theorem bares_addBranch (nodes : Array Node) (id : NodeId) :
    bares (addBranch nodes id) = addBranch (bares nodes) id := by
  apply map_modify
  intro n
  rfl

theorem bares_attach (nodes : Array Node) (e : Edge) :
    bares (attach nodes e) = attach (bares nodes) e := by
  rw [attach, attach, ← bares_addBranch]
  apply map_modify
  intro n
  rfl

theorem coveredAt_bares (nodes : Array Node) (id : NodeId) :
    coveredAt (bares nodes) id = coveredAt nodes id := by
  rw [coveredAt, coveredAt, bares, Array.getElem?_map, Option.any_map]
  rfl

theorem bares_direct (nodes : Array Node) (b : Branch) (fired : Bool) :
    bares (direct nodes b fired) = direct (bares nodes) b fired := by
  rw [direct, direct, bares_spreadIf, bares_addBranch]

theorem bares_connect (nodes : Array Node) (e : Edge) :
    bares (connect nodes e) = connect (bares nodes) e := by
  rw [connect, connect, bares_spreadIf, bares_attach, ← bares_attach, coveredAt_bares]

theorem bares_foldl_connect {a b : Array Node} (h : bares a = bares b) (edges : List Edge) :
    bares (edges.foldl connect a) = bares (edges.foldl connect b) := by
  refine List.foldl_rel (r := fun a b ↦ bares a = bares b) h ?_
  intro e _ a b hab
  rw [bares_connect, bares_connect, hab]

theorem bares_stamp (nodes : Array Node) (id : NodeId) (probe : Nat) :
    bares (stamp nodes id probe) = bares nodes :=
  Static.map_modify (g := ({ · with probe := some probe })) (fun _ ↦ rfl) nodes id

/-! ## Recording a restated stream -/

open Recording

/-- Recordings of a stream and of its restatement. -/
structure Alike (r r' : Recording) : Prop where
  current : r'.current = r.current
  nodes : bares r'.graph.nodes = bares r.graph.nodes

theorem Alike.size_eq {r r' : Recording} (h : Alike r r') :
    r'.graph.nodes.size = r.graph.nodes.size := by
  rw [← size_bares, h.nodes, size_bares]

theorem Alike.entered {r r' : Recording} (h : Alike r r') (signature : Option String) :
    bares (r'.entered signature) = bares (r.entered signature) := by
  have hfresh : bares (r'.fresh signature) = bares (r.fresh signature) := by
    have hpush : ∀ r : Recording, bares (r.fresh signature) =
        (bares r.graph.nodes).push { signature } := fun r ↦ by
      rw [fresh, bares, Array.map_push]
      rfl
    rw [hpush, hpush, h.nodes]
  unfold Recording.entered
  rw [h.current, h.size_eq]
  cases r.current with
  | none => exact hfresh
  | some previous => rw [bares_connect, bares_connect, hfresh]

theorem Alike.step {r r' : Recording} (h : Alike r r') {e e' : Event} (he : Renames ρ e e')
    (hfire : ∀ p b, e = .probe p b → fires r.probes p = fires r'.probes (ρ.probe p)) :
    Alike (r.step e) (r'.step e') := by
  cases he with
  | label l s =>
    refine ⟨?_, h.nodes⟩
    cases s with
    | false => rfl
    | true => exact h.current
  | noSuccessor => exact ⟨rfl, h.nodes⟩
  | endMethod => exact ⟨h.current, h.nodes⟩
  | instruction handle signature => exact ⟨congrArg some h.size_eq, h.entered signature⟩
  | jump l b =>
    have hcur := h.current
    cases hc : r.current with
    | none =>
      rw [hc] at hcur
      simpa only [Recording.step, hc, hcur] using h
    | some id =>
      rw [hc] at hcur
      simp only [Recording.step, hc, hcur]
      exact ⟨rfl, h.nodes⟩
  | @probe p b hp =>
    have hcur := h.current
    cases hc : r.current with
    | none =>
      rw [hc] at hcur
      simpa only [Recording.step, hc, hcur] using h
    | some id =>
      rw [hc] at hcur
      simp only [Recording.step, hc, hcur]
      refine ⟨h.current, ?_⟩
      change bares (direct _ _ _) = bares (direct _ _ _)
      rw [bares_direct, bares_direct, bares_stamp, bares_stamp, h.nodes, hfire p b rfl]

theorem Alike.foldl_step {r r' : Recording} (h : Alike r r') (hes : Restates ρ es es')
    (hfire : ∀ p, Stream.Uses es p → fires r.probes p = fires r'.probes (ρ.probe p)) :
    Alike (es.foldl Recording.step r) (es'.foldl Recording.step r') := by
  induction hes generalizing r r' with
  | nil => exact h
  | line n _ ih =>
    refine ih ⟨h.current, h.nodes⟩ fun p hp ↦ ?_
    obtain ⟨b, hb⟩ := hp
    exact hfire p ⟨b, List.mem_cons_of_mem _ hb⟩
  | lineAgain n _ ih => exact ih ⟨h.current, h.nodes⟩ hfire
  | @cons e e' es es' he _ ih =>
    refine ih (h.step he fun p b heq ↦ hfire p ⟨b, heq ▸ List.mem_cons_self⟩) fun p hp ↦ ?_
    obtain ⟨b, hb⟩ := hp
    rw [probes_step, probes_step]
    exact hfire p ⟨b, List.mem_cons_of_mem _ hb⟩

/-- The graphs of both streams differ in names, lines and probes, but not in what they cover. -/
theorem bares_ofEvents {A A' : Option (Array Bool)} {g g' : FlowGraph} (hes : Restates ρ es es')
    (h : FlowGraph.ofEvents A es = .ok g) (h' : FlowGraph.ofEvents A' es' = .ok g')
    (hfire : ∀ p, Stream.Uses es p → fires A p = fires A' (ρ.probe p)) :
    bares g'.nodes = bares g.nodes := by
  have hstart : Alike { probes := A } { probes := A' } := ⟨rfl, rfl⟩
  rw [(FlowGraph.ofEvents_eq_ok h).2.2, (FlowGraph.ofEvents_eq_ok h').2.2, hes.jumpEdges_eq]
  exact bares_foldl_connect (hstart.foldl_step hes hfire).nodes _

end ProbeCoverage
