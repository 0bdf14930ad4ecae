import ProbeCoverage.Proofs.Recording

/-!
# Reading a stream

What the events of a method say, each seen with the instructions before it: which instruction
falls through to which, which probes and jumps belong to which instruction, and where a label
leads. A recording holds exactly this, whatever the probe array.
-/

namespace ProbeCoverage

/-- The last element of a list, or one before it. -/
theorem exists_split_append_singleton {α : Type} {l : List α} {c x : α}
    {P : List α → List α → Prop} :
    (∃ before after, l ++ [c] = before ++ x :: after ∧ P before after) ↔
      (∃ before after, l = before ++ x :: after ∧ P before (after ++ [c])) ∨ c = x ∧ P l [] := by
  constructor
  · rintro ⟨before, after, heq, hP⟩
    rcases List.eq_nil_or_concat after with rfl | ⟨after, y, rfl⟩
    · obtain ⟨rfl, hc⟩ := List.append_inj' heq rfl
      exact Or.inr ⟨(List.cons.inj hc).1, hP⟩
    · rw [List.concat_eq_append, ← List.cons_append, ← List.append_assoc] at heq
      obtain ⟨rfl, hc⟩ := List.append_inj' heq rfl
      obtain rfl := (List.cons.inj hc).1
      exact Or.inl ⟨before, after, rfl, List.concat_eq_append ▸ hP⟩
  · rintro (⟨before, after, rfl, hP⟩ | ⟨rfl, hP⟩)
    · exact ⟨before, after ++ [c], by simp, hP⟩
    · exact ⟨l, [], rfl, hP⟩

theorem not_of_head?_dropWhile {α : Type} {p : α → Bool} {l : List α} {a : α}
    (h : a ∈ (l.dropWhile p).head?) : p a = false := by
  have hhead := List.head?_dropWhile_not p l
  rw [Option.mem_def.mp h] at hhead
  simpa using hhead

/-- A place in a stream: how many instructions stand before it, and the one that is current. -/
structure Cursor where
  count : Nat := 0
  current : Option NodeId := none
deriving DecidableEq

def Cursor.advance (c : Cursor) : Event → Cursor
  | .instruction _ _ => ⟨c.count + 1, some c.count⟩
  | .label _ false | .noSuccessor => { c with current := none }
  | _ => c

namespace Stream

def cursor (es : List Event) : Cursor := es.foldl Cursor.advance {}

def sitesFrom : Cursor → List Event → List (Cursor × Event)
  | _, [] => []
  | c, e :: es => (c, e) :: sitesFrom (c.advance e) es

def sites (es : List Event) : List (Cursor × Event) := sitesFrom {} es

def fall? (c : Cursor) : Event → Option Edge
  | .instruction _ _ => c.current.map fun previous ↦ ⟨⟨previous, 0⟩, c.count⟩
  | _ => none

def probe? (c : Cursor) : Event → Option (Branch × Nat)
  | .probe probe branch => c.current.map fun id ↦ (⟨id, branch⟩, probe)
  | _ => none

def jump? (c : Cursor) : Event → Option Jump
  | .jump target branch => c.current.map fun source ↦ { source, target, branch }
  | _ => none

def mark? (c : Cursor) : Event → Option (Label × NodeId)
  | .label label _ => some (label, c.count)
  | _ => none

def signature? : Event → Option (Option String)
  | .instruction _ signature => some signature
  | _ => none

/-- The edges by which an instruction falls through to the next one. -/
def falls (es : List Event) : List Edge := (sites es).filterMap fun (c, e) ↦ fall? c e

/-- The probes, each with the branch that it watches. -/
def probes (es : List Event) : List (Branch × Nat) := (sites es).filterMap fun (c, e) ↦ probe? c e

def jumps (es : List Event) : List Jump := (sites es).filterMap fun (c, e) ↦ jump? c e

/-- The labels, each with the instruction that it would mark. -/
def marks (es : List Event) : List (Label × NodeId) := (sites es).filterMap fun (c, e) ↦ mark? c e

def signatures (es : List Event) : List (Option String) := es.filterMap signature?

/-- The marks that an instruction follows. -/
def placed (es : List Event) : List (Label × NodeId) :=
  (marks es).filter (·.2 < (cursor es).count)

/-- The instruction that a label leads to: the one after its last place in the code. -/
def place? (es : List Event) (l : Label) : Option NodeId := (placed es).reverse.lookup l

def edgeOf? (es : List Event) (j : Jump) : Option Edge :=
  (place? es j.target).map fun target ↦ ⟨⟨j.source, j.branch⟩, target⟩

/-- All ways for control to flow. -/
def edges (es : List Event) : List Edge := falls es ++ (jumps es).filterMap (edgeOf? es)

/-- The probe that an instruction keeps: the last one that belongs to it. -/
def lastProbe? (es : List Event) (id : NodeId) : Option Nat :=
  ((probes es).filter (·.1.node = id)).getLast?.map (·.2)

/-- The probe lies between two that instructions keep. -/
def Kept (es : List Event) (i : Nat) : Prop :=
  ∃ j, (∃ id, lastProbe? es id = some j) ∧ ∃ k, (∃ id, lastProbe? es id = some k) ∧ j ≤ i ∧ i ≤ k

@[simp] theorem cursor_append (es : List Event) (e : Event) :
    cursor (es ++ [e]) = (cursor es).advance e := by
  simp [cursor]

theorem sitesFrom_append (c : Cursor) (es : List Event) (e : Event) :
    sitesFrom c (es ++ [e]) = sitesFrom c es ++ [(es.foldl Cursor.advance c, e)] := by
  induction es generalizing c with
  | nil => rfl
  | cons f es ih => simp [sitesFrom, ih]

@[simp] theorem sites_append (es : List Event) (e : Event) :
    sites (es ++ [e]) = sites es ++ [(cursor es, e)] :=
  sitesFrom_append {} es e

/-- Every event is seen once, with what the events before it lead to. -/
theorem mem_sites_iff {es : List Event} {c : Cursor} {e : Event} :
    (c, e) ∈ sites es ↔ ∃ before after, es = before ++ e :: after ∧ cursor before = c := by
  induction es using List.reverseRecOn with
  | nil => simp [sites, sitesFrom]
  | append_singleton es f ih =>
    rw [sites_append, List.mem_append, ih, List.mem_singleton, Prod.mk.injEq,
      exists_split_append_singleton (P := fun before _ ↦ cursor before = c)]
    exact or_congr Iff.rfl ⟨fun h ↦ ⟨h.2.symm, h.1.symm⟩, fun h ↦ ⟨h.2.symm, h.1.symm⟩⟩

theorem filterMap_append_singleton {α β : Type} (f : α → Option β) (l : List α) (a : α) :
    (l ++ [a]).filterMap f = l.filterMap f ++ (f a).toList := by
  cases h : f a <;> simp [h]

theorem falls_append (es : List Event) (e : Event) :
    falls (es ++ [e]) = falls es ++ (fall? (cursor es) e).toList := by
  rw [falls, sites_append, filterMap_append_singleton, ← falls]

theorem probes_append (es : List Event) (e : Event) :
    probes (es ++ [e]) = probes es ++ (probe? (cursor es) e).toList := by
  rw [probes, sites_append, filterMap_append_singleton, ← probes]

theorem jumps_append (es : List Event) (e : Event) :
    jumps (es ++ [e]) = jumps es ++ (jump? (cursor es) e).toList := by
  rw [jumps, sites_append, filterMap_append_singleton, ← jumps]

theorem marks_append (es : List Event) (e : Event) :
    marks (es ++ [e]) = marks es ++ (mark? (cursor es) e).toList := by
  rw [marks, sites_append, filterMap_append_singleton, ← marks]

theorem signatures_append (es : List Event) (e : Event) :
    signatures (es ++ [e]) = signatures es ++ (signature? e).toList := by
  rw [signatures, filterMap_append_singleton, ← signatures]

/-- The current instruction is the last one. -/
theorem current_succ {es : List Event} {id : NodeId} (h : (cursor es).current = some id) :
    id + 1 = (cursor es).count := by
  induction es using List.reverseRecOn with
  | nil => cases h
  | append_singleton es e ih =>
    rw [cursor_append] at h ⊢
    cases e with
    | instruction handle signature =>
      obtain rfl : (cursor es).count = id := Option.some.inj h
      rfl
    | label l s =>
      cases s with
      | false => cases h
      | true => exact ih h
    | noSuccessor => cases h
    | line n => exact ih h
    | jump l b => exact ih h
    | probe p b => exact ih h
    | endMethod => exact ih h

theorem current_lt_count {es : List Event} {id : NodeId} (h : (cursor es).current = some id) :
    id < (cursor es).count :=
  Nat.lt_of_succ_le (Nat.le_of_eq (current_succ h))

theorem count_le_advance (c : Cursor) (e : Event) : c.count ≤ (c.advance e).count := by
  cases e with
  | label l s => cases s <;> exact Nat.le_refl _
  | instruction h s => exact Nat.le_succ _
  | _ => exact Nat.le_refl _

theorem node_lt_count {es : List Event} {b : Branch} {probe : Nat} (h : (b, probe) ∈ probes es) :
    b.node < (cursor es).count := by
  induction es using List.reverseRecOn with
  | nil => cases h
  | append_singleton es e ih =>
    rw [probes_append, List.mem_append] at h
    rw [cursor_append]
    refine Nat.lt_of_lt_of_le ?_ (count_le_advance (cursor es) e)
    rcases h with h | h
    · exact ih h
    · cases e with
      | probe p i =>
        rw [Option.mem_toList, probe?, Option.map_eq_some_iff] at h
        obtain ⟨id, hid, heq⟩ := h
        cases heq
        exact current_lt_count hid
      | _ => cases h

/-- An instruction to come keeps no probe yet. -/
theorem lastProbe?_count (es : List Event) : lastProbe? es (cursor es).count = none := by
  have hnil : (probes es).filter (·.1.node = (cursor es).count) = [] := by
    rw [List.filter_eq_nil_iff]
    rintro ⟨b, p⟩ hb
    simpa using Nat.ne_of_lt (node_lt_count hb)
  rw [lastProbe?, hnil]
  rfl

theorem lastProbe?_append_of_none {es : List Event} {e : Event}
    (h : probe? (cursor es) e = none) (id : NodeId) :
    lastProbe? (es ++ [e]) id = lastProbe? es id := by
  rw [lastProbe?, probes_append, h, Option.toList_none, List.append_nil, ← lastProbe?]

theorem lastProbe?_append_probe {es : List Event} {probe branch : Nat} {current : NodeId}
    (h : (cursor es).current = some current) (id : NodeId) :
    lastProbe? (es ++ [.probe probe branch]) id =
      if current = id then some probe else lastProbe? es id := by
  rw [lastProbe?, probes_append, probe?, h, Option.map_some, Option.toList_some,
    List.filter_append]
  by_cases hid : current = id
  · simp [hid]
  · simp [hid, lastProbe?]

theorem exists_of_lastProbe? {es : List Event} {id : NodeId} {p : Nat}
    (h : lastProbe? es id = some p) : ∃ b, (b, p) ∈ probes es ∧ b.node = id := by
  obtain ⟨⟨b, q⟩, hlast, rfl⟩ := Option.map_eq_some_iff.mp h
  have hmem := List.mem_filter.mp (List.mem_of_getLast? hlast)
  exact ⟨b, hmem.1, of_decide_eq_true hmem.2⟩

end Stream

/-- The recording holds what the events say. -/
structure Reads (es : List Event) (r : Recording) : Prop where
  size : r.graph.nodes.size = (Stream.cursor es).count
  current : r.current = (Stream.cursor es).current
  jumps : r.jumps.toList = Stream.jumps es
  /-- The pending labels are the last marks; the others are placed. -/
  marks : ∃ old, Stream.marks es =
      old ++ r.pending.reverse.map (·, (Stream.cursor es).count) ∧
    (∀ m ∈ old, m.2 < (Stream.cursor es).count) ∧ ∀ l, r.places[l]? = old.reverse.lookup l
  stamps : ∀ id, id < r.graph.nodes.size →
    (r.graph.nodes.map Node.probe)[id]? = some (Stream.lastProbe? es id)
  signatures : (r.graph.nodes.map Node.signature).toList = Stream.signatures es

theorem getElem?_foldl_insert (ls : List Label) (places : Std.ExtTreeMap Label NodeId)
    (id : NodeId) (l : Label) :
    (ls.foldl (·.insert · id) places)[l]? = if l ∈ ls then some id else places[l]? := by
  induction ls generalizing places with
  | nil => simp
  | cons k ls ih =>
    rw [List.foldl_cons, ih, Std.ExtTreeMap.getElem?_insert]
    by_cases hl : l ∈ ls
    · simp [hl]
    · by_cases hk : k = l
      · simp [hl, hk]
      · simp [hl, hk, Ne.symm hk]

theorem lookup_map_pair (ls : List Label) (id : NodeId) (l : Label) :
    (ls.map (·, id)).lookup l = if l ∈ ls then some id else none := by
  induction ls with
  | nil => rfl
  | cons k ls ih =>
    rw [List.map_cons, List.lookup_cons, ih]
    by_cases hk : l = k
    · simp [hk]
    · simp [hk, beq_false_of_ne hk]

theorem lookup_placed (old : List (Label × NodeId)) (ls : List Label) (id : NodeId) (l : Label) :
    (old ++ ls.reverse.map (·, id)).reverse.lookup l =
      if l ∈ ls then some id else old.reverse.lookup l := by
  rw [List.reverse_append, ← List.map_reverse, List.reverse_reverse, List.lookup_append,
    lookup_map_pair]
  split <;> rfl

/-- An event that leaves instructions, jumps and labels alone. -/
theorem reads_idle {es : List Event} {r r' : Recording} {e : Event} (h : Reads es r)
    (hprobe : Stream.probe? (Stream.cursor es) e = none)
    (hjump : Stream.jump? (Stream.cursor es) e = none)
    (hmark : Stream.mark? (Stream.cursor es) e = none)
    (hsig : Stream.signature? e = none)
    (hcount : ((Stream.cursor es).advance e).count = (Stream.cursor es).count)
    (hcur : r'.current = ((Stream.cursor es).advance e).current)
    (hr : r' = { r with line := r'.line, current := r'.current, ended := r'.ended }) :
    Reads (es ++ [e]) r' := by
  obtain ⟨hsize, -, hjumps, hmarks, hstamps, hsigs⟩ := h
  rw [hr]
  refine ⟨?_, ?_, ?_, ?_, fun id hid ↦ ?_, ?_⟩
  · rwa [Stream.cursor_append, hcount]
  · rwa [Stream.cursor_append]
  · rwa [Stream.jumps_append, hjump, Option.toList_none, List.append_nil]
  · rwa [Stream.marks_append, hmark, Option.toList_none, List.append_nil, Stream.cursor_append,
      hcount]
  · rw [Stream.lastProbe?_append_of_none hprobe]
    exact hstamps id hid
  · rwa [Stream.signatures_append, hsig, Option.toList_none, List.append_nil]

theorem reads_label {es : List Event} {r : Recording} (h : Reads es r) (l : Label) (s : Bool) :
    Reads (es ++ [.label l s]) (r.step (.label l s)) := by
  obtain ⟨hsize, hcur, hjumps, ⟨old, hmarks, hold, hplaces⟩, hstamps, hsigs⟩ := h
  have hcount : ((Stream.cursor es).advance (.label l s)).count = (Stream.cursor es).count := by
    cases s <;> rfl
  refine ⟨?_, ?_, ?_, ⟨old, ?_, ?_, hplaces⟩, fun id hid ↦ ?_, ?_⟩
  · rwa [Stream.cursor_append, hcount]
  · rw [Stream.cursor_append]
    cases s with
    | false => rfl
    | true => exact hcur
  · rw [Stream.jumps_append]
    simpa [Stream.jump?, Recording.step] using hjumps
  · rw [Stream.marks_append, Stream.cursor_append, hcount, hmarks]
    simp [Stream.mark?, Recording.step]
  · rwa [Stream.cursor_append, hcount]
  · rw [Stream.lastProbe?_append_of_none rfl]
    exact hstamps id hid
  · rw [Stream.signatures_append]
    simpa [Stream.signature?, Recording.step] using hsigs

theorem reads_jump {es : List Event} {r : Recording} (h : Reads es r) (l : Label) (b : Nat) :
    Reads (es ++ [.jump l b]) (r.step (.jump l b)) := by
  cases hc : r.current with
  | none =>
    have hnone : Stream.jump? (Stream.cursor es) (.jump l b) = none := by
      rw [Stream.jump?, ← h.current, hc, Option.map_none]
    have hstep : r.step (.jump l b) = r := by simp [Recording.step, hc]
    rw [hstep]
    exact reads_idle h rfl hnone rfl rfl rfl h.current rfl
  | some id =>
    obtain ⟨hsize, hcur, hjumps, hmarks, hstamps, hsigs⟩ := h
    have hstep : r.step (.jump l b) =
        { r with jumps := r.jumps.push { source := id, target := l, branch := b } } := by
      simp [Recording.step, hc]
    have hmark : Stream.mark? (Stream.cursor es) (.jump l b) = none := rfl
    have hsig : Stream.signature? (.jump l b) = none := rfl
    rw [hstep]
    refine ⟨?_, ?_, ?_, ?_, fun i hi ↦ ?_, ?_⟩
    · rwa [Stream.cursor_append]
    · rwa [Stream.cursor_append]
    · rw [Stream.jumps_append, Stream.jump?, ← hcur, ← hjumps, hc]
      simp
    · rw [Stream.marks_append, hmark, Option.toList_none, List.append_nil, Stream.cursor_append]
      exact hmarks
    · rw [Stream.lastProbe?_append_of_none rfl]
      exact hstamps i hi
    · rwa [Stream.signatures_append, hsig, Option.toList_none, List.append_nil]

theorem reads_probe {es : List Event} {r : Recording} (h : Reads es r) (p b : Nat) :
    Reads (es ++ [.probe p b]) (r.step (.probe p b)) := by
  cases hc : r.current with
  | none =>
    have hnone : Stream.probe? (Stream.cursor es) (.probe p b) = none := by
      rw [Stream.probe?, ← h.current, hc, Option.map_none]
    have hstep : r.step (.probe p b) = r := by simp [Recording.step, hc]
    rw [hstep]
    exact reads_idle h hnone rfl rfl rfl rfl h.current rfl
  | some id =>
    obtain ⟨hsize, hcur, hjumps, hmarks, hstamps, hsigs⟩ := h
    have hstep : r.step (.probe p b) = r.withNodes
        (direct (stamp r.graph.nodes id p) ⟨id, b⟩ (fires r.probes p)) := by
      simp [Recording.step, hc]
    have hstamped : (direct (stamp r.graph.nodes id p) ⟨id, b⟩ (fires r.probes p)).map Node.probe =
        (stamp r.graph.nodes id p).map Node.probe := static_probe.map_direct _ _ _
    have hsigned : (direct (stamp r.graph.nodes id p) ⟨id, b⟩
        (fires r.probes p)).map Node.signature = r.graph.nodes.map Node.signature :=
      (static_signature.map_direct _ _ _).trans
        (Static.map_modify (g := ({ · with probe := some p })) (fun _ ↦ rfl) _ _)
    have hkept := Static.size_eq hsigned
    have hmark : Stream.mark? (Stream.cursor es) (.probe p b) = none := rfl
    have hjump : Stream.jump? (Stream.cursor es) (.probe p b) = none := rfl
    have hsig : Stream.signature? (.probe p b) = none := rfl
    rw [hstep]
    refine ⟨?_, hcur.trans (by rw [Stream.cursor_append]; rfl), ?_, ?_, fun i hi ↦ ?_, ?_⟩
    · rw [Stream.cursor_append]
      exact hkept.trans hsize
    · rwa [Stream.jumps_append, hjump, Option.toList_none, List.append_nil]
    · rw [Stream.marks_append, hmark, Option.toList_none, List.append_nil, Stream.cursor_append]
      exact hmarks
    · change (Array.map _ (direct _ _ _))[i]? = _
      have hi' : i < r.graph.nodes.size := hkept ▸ hi
      have hold := hstamps i hi'
      rw [hstamped, Stream.lastProbe?_append_probe (hcur.symm.trans hc)]
      rw [Array.getElem?_map] at hold ⊢
      rw [stamp, Array.getElem?_modify]
      split
      next heq => simp [hi']
      next => exact hold
    · rw [Stream.signatures_append, hsig, Option.toList_none, List.append_nil, ← hsigs]
      exact congrArg Array.toList hsigned

theorem map_entered {β : Type} {f : Node → β} (hf : Static f) (r : Recording)
    (signature : Option String) :
    (r.entered signature).map f =
      (r.graph.nodes.map f).push (f { line := r.line, signature }) := by
  have hfresh : (r.fresh signature).map f =
      (r.graph.nodes.map f).push (f { line := r.line, signature }) := by
    simp [Recording.fresh]
  unfold Recording.entered
  split
  next => rw [hf.map_connect, hfresh]
  next => exact hfresh

theorem reads_instruction {es : List Event} {r : Recording} (h : Reads es r) (handle : Handle)
    (signature : Option String) :
    Reads (es ++ [.instruction handle signature]) (r.enter handle signature) := by
  obtain ⟨hsize, hcur, hjumps, ⟨old, hmarks, hold, hplaces⟩, hstamps, hsigs⟩ := h
  have hcursor : Stream.cursor (es ++ [.instruction handle signature]) =
      ⟨(Stream.cursor es).count + 1, some (Stream.cursor es).count⟩ := Stream.cursor_append _ _
  have hstamped := map_entered static_probe r signature
  have hsigned := map_entered static_signature r signature
  have hgrown : (r.entered signature).size = r.graph.nodes.size + 1 := by
    simpa using congrArg Array.size hstamped
  refine ⟨?_, ?_, ?_, ⟨Stream.marks es, ?_, ?_, fun l ↦ ?_⟩, fun i hi ↦ ?_, ?_⟩
  · rw [hcursor, ← hsize]
    exact hgrown
  · rw [hcursor, ← hsize]
    rfl
  · rw [Stream.jumps_append]
    exact hjumps.trans (List.append_nil _).symm
  · rw [Stream.marks_append]
    rfl
  · intro m hm
    rw [hcursor]
    rw [hmarks, List.mem_append] at hm
    rcases hm with hm | hm
    · exact Nat.lt_succ_of_lt (hold m hm)
    · obtain ⟨l, -, rfl⟩ := List.mem_map.mp hm
      exact Nat.lt_succ_self _
  · rw [hmarks, ← hsize, lookup_placed, ← hplaces]
    exact getElem?_foldl_insert r.pending r.places r.graph.nodes.size l
  · change (Array.map _ (r.entered signature))[i]? = _
    rw [hstamped, Stream.lastProbe?_append_of_none rfl, Array.getElem?_push, Array.size_map]
    split
    next heq => rw [heq, hsize, Stream.lastProbe?_count]
    next hne =>
      have hlt : i < (r.entered signature).size := hi
      exact hstamps i (by omega)
  · change (Array.map _ (r.entered signature)).toList = _
    rw [hsigned, Array.toList_push, hsigs, Stream.signatures_append]
    rfl

theorem reads_step {es : List Event} {r : Recording} (h : Reads es r) (e : Event) :
    Reads (es ++ [e]) (r.step e) := by
  cases e with
  | line n => exact reads_idle h rfl rfl rfl rfl rfl h.current rfl
  | noSuccessor => exact reads_idle h rfl rfl rfl rfl rfl rfl rfl
  | endMethod => exact reads_idle h rfl rfl rfl rfl rfl h.current rfl
  | label l s => exact reads_label h l s
  | jump l b => exact reads_jump h l b
  | probe p b => exact reads_probe h p b
  | instruction handle signature => exact reads_instruction h handle signature

theorem reads_ofStream (probes : Option (Array Bool)) (es : List Event) :
    Reads es (Recording.ofStream probes es) := by
  induction es using List.reverseRecOn with
  | nil =>
    refine ⟨rfl, rfl, rfl, ⟨[], rfl, by simp, fun l ↦ ?_⟩, by simp [Recording.ofStream], ?_⟩
    · simp [Recording.ofStream]
    · simp [Recording.ofStream, Stream.signatures]
  | append_singleton es e ih =>
    rw [Recording.ofStream_append]
    exact reads_step ih e

/-- The places of a recording are those that the stream gives to the labels. -/
theorem Reads.place?_eq {es : List Event} {r : Recording} (h : Reads es r) (l : Label) :
    Stream.place? es l = r.places[l]? := by
  obtain ⟨old, hmarks, hold, hplaces⟩ := h.marks
  have hplaced : Stream.placed es = old := by
    rw [Stream.placed, hmarks, List.filter_append]
    have hkeep : old.filter (·.2 < (Stream.cursor es).count) = old :=
      List.filter_eq_self.mpr fun m hm ↦ decide_eq_true (hold m hm)
    have hdrop : (r.pending.reverse.map (·, (Stream.cursor es).count)).filter
        (·.2 < (Stream.cursor es).count) = [] := by
      simp [List.filter_eq_nil_iff]
    rw [hkeep, hdrop, List.append_nil]
  rw [Stream.place?, hplaced, hplaces]

theorem Reads.resolve_eq {es : List Event} {r : Recording} (h : Reads es r) :
    Recording.resolve r.places = Stream.edgeOf? es := by
  funext j
  rw [Recording.resolve, Stream.edgeOf?, h.place?_eq]

theorem map_eq_of_mapM {α β : Type} {f : α → Option β} {as : List α} {bs : List β}
    (h : as.mapM f = some bs) : as.map f = bs.map some := by
  induction as generalizing bs with
  | nil =>
    obtain rfl : [] = bs := by simpa using h
    rfl
  | cons a as ih =>
    simp only [List.mapM_cons, Option.bind_eq_bind, Option.bind_eq_some_iff, Option.pure_def,
      Option.some.injEq] at h
    obtain ⟨b, hb, bs', hbs, rfl⟩ := h
    rw [List.map_cons, List.map_cons, hb, ih hbs]

theorem filterMap_eq_of_mapM {α β : Type} {f : α → Option β} {as : List α} {bs : List β}
    (h : as.mapM f = some bs) : as.filterMap f = bs := by
  have hmap : (as.map f).filterMap id = (bs.map some).filterMap id :=
    congrArg _ (map_eq_of_mapM h)
  simpa [List.filterMap_map] using hmap

/-- The finished graph: that of the recording, with all jumps connected in their order. -/
theorem FlowGraph.ofEvents_eq_ok {probes : Option (Array Bool)} {es : List Event} {g : FlowGraph}
    (h : FlowGraph.ofEvents probes es = .ok g) :
    Recording.Admitted { probes } es ∧
      Recording.Connectable (Recording.ofStream probes es).graph.nodes
        ((Stream.jumps es).filterMap (Stream.edgeOf? es)) ∧
      g.nodes = ((Stream.jumps es).filterMap (Stream.edgeOf? es)).foldl connect
        (Recording.ofStream probes es).graph.nodes := by
  obtain ⟨hadm, -, edges, hedges, hcon, rfl⟩ := FlowGraph.ofEvents_eq_ok_iff.mp h
  have hreads := reads_ofStream probes es
  rw [hreads.resolve_eq, hreads.jumps] at hedges
  obtain rfl := filterMap_eq_of_mapM hedges
  exact ⟨hadm, hcon, rfl⟩

namespace FlowGraph

variable {probes : Option (Array Bool)} {es : List Event} {g : FlowGraph}

theorem map_ofEvents {β : Type} {f : Node → β} (hf : Static f)
    (h : FlowGraph.ofEvents probes es = .ok g) :
    g.nodes.map f = (Recording.ofStream probes es).graph.nodes.map f := by
  rw [(FlowGraph.ofEvents_eq_ok h).2.2, hf.map_foldl_connect]

theorem size_ofEvents (h : FlowGraph.ofEvents probes es = .ok g) :
    g.nodes.size = (Stream.cursor es).count := by
  rw [Static.size_eq (map_ofEvents static_signature h), (reads_ofStream probes es).size]

theorem signatures_ofEvents (h : FlowGraph.ofEvents probes es = .ok g) :
    (g.nodes.map Node.signature).toList = Stream.signatures es := by
  rw [map_ofEvents static_signature h, (reads_ofStream probes es).signatures]

theorem probe_ofEvents (h : FlowGraph.ofEvents probes es = .ok g) {id : NodeId}
    (hid : id < g.nodes.size) :
    (g.nodes.map Node.probe)[id]? = some (Stream.lastProbe? es id) := by
  have hsame := map_ofEvents static_probe h
  rw [hsame]
  exact (reads_ofStream probes es).stamps id (Static.size_eq hsame ▸ hid)

theorem mem_probes_ofEvents (h : FlowGraph.ofEvents probes es = .ok g) {p : Nat} :
    p ∈ g.nodes.toList.filterMap (·.probe) ↔ ∃ id, Stream.lastProbe? es id = some p := by
  rw [List.mem_filterMap]
  constructor
  · rintro ⟨n, hn, hp⟩
    obtain ⟨id, hid, rfl⟩ := Array.mem_iff_getElem.mp (Array.mem_def.mpr hn)
    have hstamp := probe_ofEvents h hid
    rw [Array.getElem?_map, Array.getElem?_eq_getElem hid, Option.map_some, hp] at hstamp
    exact ⟨id, (Option.some.inj hstamp).symm⟩
  · rintro ⟨id, hid⟩
    obtain ⟨b, hb, rfl⟩ := Stream.exists_of_lastProbe? hid
    have hlt : b.node < g.nodes.size := size_ofEvents h ▸ Stream.node_lt_count hb
    have hstamp := probe_ofEvents h hlt
    rw [Array.getElem?_map, Array.getElem?_eq_getElem hlt, Option.map_some, hid] at hstamp
    exact ⟨g.nodes[b.node], Array.mem_def.mp (Array.getElem_mem hlt), Option.some.inj hstamp⟩

end FlowGraph

end ProbeCoverage
