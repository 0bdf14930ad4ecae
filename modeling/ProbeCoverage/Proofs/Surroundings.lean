import Mathlib.Data.List.TakeWhile
import ProbeCoverage.Proofs.Wiring

/-!
# Around an instruction

What a stream says about one of its instructions, read off the events before and after it. To the
instruction belong the events up to the next one or to a break of the flow, and it is entered from
the last instruction before, if nothing breaks the flow in between, and from the jumps whose label
leads to it.
-/

namespace ProbeCoverage

namespace Stream

/-! ## What the events say -/

def probeId? : Event → Option Nat
  | .probe probe _ => some probe
  | _ => none

def isJump : Event → Bool
  | .jump _ _ => true
  | _ => false

/-- What comes later does not belong to the instruction before. -/
def ends : Event → Bool
  | .instruction _ _ | .label _ false | .noSuccessor => true
  | _ => false

/-- Of the events after an instruction, those that belong to it. -/
def own (after : List Event) : List Event := after.takeWhile (!ends ·)

/-- Of the events after an instruction, the one that ends it. -/
def ending? (after : List Event) : Option Event := (after.dropWhile (!ends ·)).head?

def fallsThrough (after : List Event) : Bool := ((ending? after).bind handle?).isSome

/-- Of the places of a label that an instruction follows, the last one stands before the instruction
`id`. -/
def LeadsTo (es : List Event) (l : Label) (id : NodeId) : Prop :=
  ∃ before successor after, es = before ++ .label l successor :: after ∧
    handles after ≠ [] ∧ ¬ Marked after l ∧ (handles before).length = id

/-! ## Current instructions and places of labels -/

variable {es before after : List Event}

theorem isSome_current_iff : (cursor es).current.isSome ↔ HasCurrent es := by
  rw [← isSome_currentHandle?_iff]
  have hrel := current_rel es
  revert hrel
  generalize (cursor es).current = current
  generalize currentHandle? es = currentHandle
  rintro (_ | _)
  · exact Iff.rfl
  · exact Iff.rfl

/-- Only the last instruction can be current. -/
theorem current_eq_some_iff {id : NodeId} : (cursor es).current = some id ↔
    HasCurrent es ∧ id + 1 = (handles es).length := by
  rw [← isSome_current_iff, ← count_cursor]
  constructor
  · exact fun h ↦ ⟨h ▸ rfl, current_succ h⟩
  · rintro ⟨hsome, hid⟩
    obtain ⟨id', hid'⟩ := Option.isSome_iff_exists.mp hsome
    have hsucc := current_succ hid'
    rw [hid', Nat.succ.inj (hsucc.trans hid.symm)]

instance : Decidable (HasCurrent es) := decidable_of_iff _ isSome_current_iff

theorem exists_label_append {e : Event} {l : Label} {P : List Event → List Event → Prop} :
    (∃ before s after, es ++ [e] = before ++ .label l s :: after ∧ P before after) ↔
      (∃ before s after, es = before ++ .label l s :: after ∧ P before (after ++ [e])) ∨
        (∃ s, e = .label l s) ∧ P es [] := by
  constructor
  · rintro ⟨before, s, after, heq, hP⟩
    rcases exists_split_append_singleton.mp ⟨before, after, heq, hP⟩ with
      ⟨before, after, rfl, hP⟩ | ⟨rfl, hP⟩
    · exact Or.inl ⟨before, s, after, rfl, hP⟩
    · exact Or.inr ⟨⟨s, rfl⟩, hP⟩
  · rintro (⟨before, s, after, rfl, hP⟩ | ⟨⟨s, rfl⟩, hP⟩)
    · exact ⟨before, s, after ++ [e], by simp, hP⟩
    · exact ⟨es, s, [], rfl, hP⟩

/-- The label stands last before the instruction to come at `id`. -/
def LastBefore (es : List Event) (l : Label) (id : NodeId) : Prop :=
  ∃ before successor after, es = before ++ .label l successor :: after ∧
    (∀ s, .label l s ∉ after) ∧ (handles before).length = id

theorem lastBefore_append {e : Event} {l : Label} {id : NodeId} :
    LastBefore (es ++ [e]) l id ↔
      (LastBefore es l id ∧ ∀ s, .label l s ≠ e) ∨
        (∃ s, e = .label l s) ∧ (handles es).length = id := by
  rw [LastBefore, exists_label_append
    (P := fun before after ↦ (∀ s, .label l s ∉ after) ∧ (handles before).length = id)]
  refine or_congr ?_ (and_congr_right fun _ ↦ by simp)
  simp only [LastBefore, List.mem_append, List.mem_singleton, not_or, forall_and]
  constructor
  · rintro ⟨before, s, after, heq, ⟨hlast, he⟩, hid⟩
    exact ⟨⟨before, s, after, heq, hlast, hid⟩, he⟩
  · rintro ⟨⟨before, s, after, heq, hlast, hid⟩, he⟩
    exact ⟨before, s, after, heq, ⟨hlast, he⟩, hid⟩

theorem lookup_marks_eq_some_iff {l : Label} {id : NodeId} :
    (marks es).reverse.lookup l = some id ↔ LastBefore es l id := by
  induction es using List.reverseRecOn with
  | nil => simp [marks, sites, sitesFrom, LastBefore]
  | append_singleton es e ih =>
    rw [lastBefore_append, ← ih, marks_append, List.reverse_append, List.lookup_append,
      ← count_cursor]
    cases e with
    | label l' s =>
      by_cases hl : l = l'
      · simp [mark?, hl]
      · simp [mark?, List.lookup_cons, hl, Ne.symm hl, beq_false_of_ne hl]
    | _ => simp [mark?]

theorem place?_append_of_instruction (handle : Handle) (signature : Option String) (l : Label) :
    place? (es ++ [.instruction handle signature]) l = (marks es).reverse.lookup l := by
  have hmarks : marks (es ++ [.instruction handle signature]) = marks es := by
    rw [marks_append]
    exact List.append_nil _
  have hall : placed (es ++ [.instruction handle signature]) = marks es := by
    rw [placed, hmarks, List.filter_eq_self]
    intro m hm
    obtain ⟨before, s, after, rfl, hid⟩ := mem_marks_iff.mp hm
    rw [← hid, List.append_assoc, count_cursor_append]
    exact decide_eq_true (Nat.lt_add_of_pos_right (by simp [handles, handle?]))
  rw [place?, hall]

theorem place?_append_of_none {e : Event} (he : handle? e = none) (l : Label) :
    place? (es ++ [e]) l = place? es l := by
  have hcount : (cursor (es ++ [e])).count = (cursor es).count := by
    rw [count_cursor_append, handles, List.filterMap_cons_none he]
    rfl
  have hsame : placed (es ++ [e]) = placed es := by
    rw [placed, hcount, marks_append, List.filter_append, ← placed]
    cases e <;> simp [mark?]
  rw [place?, hsame, place?]

theorem marked_append_of_instruction {handle : Handle} {signature : Option String} {l : Label} :
    Marked (es ++ [.instruction handle signature]) l ↔ ∃ s, .label l s ∈ es := by
  constructor
  · rintro ⟨before, s, after, heq, -⟩
    have hmem : .label l s ∈ es ++ [.instruction handle signature] := by simp [heq]
    exact ⟨s, by simpa using hmem⟩
  · rintro ⟨s, hmem⟩
    obtain ⟨before, after, rfl⟩ := List.append_of_mem hmem
    exact ⟨before, s, after ++ [.instruction handle signature], by simp, handle, signature, by simp⟩

theorem marked_append_of_none {e : Event} (he : handle? e = none) {l : Label} :
    Marked (es ++ [e]) l ↔ Marked es l := by
  rw [← isSome_place?_iff, ← isSome_place?_iff, place?_append_of_none he]

theorem leadsTo_append {e : Event} {l : Label} {id : NodeId} : LeadsTo (es ++ [e]) l id ↔
    ∃ before s after, es = before ++ .label l s :: after ∧
      handles (after ++ [e]) ≠ [] ∧ ¬ Marked (after ++ [e]) l ∧ (handles before).length = id := by
  rw [LeadsTo, exists_label_append (P := fun before after ↦
    handles after ≠ [] ∧ ¬ Marked after l ∧ (handles before).length = id)]
  exact or_iff_left fun h ↦ h.2.1 rfl

theorem leadsTo_append_of_instruction {handle : Handle} {signature : Option String} {l : Label}
    {id : NodeId} :
    LeadsTo (es ++ [.instruction handle signature]) l id ↔ LastBefore es l id := by
  simp [leadsTo_append, marked_append_of_instruction, handles_append_singleton, handle?, LastBefore]

theorem leadsTo_append_of_none {e : Event} (he : handle? e = none) {l : Label} {id : NodeId} :
    LeadsTo (es ++ [e]) l id ↔ LeadsTo es l id := by
  rw [leadsTo_append, LeadsTo]
  simp only [marked_append_of_none he, handles_append_singleton, he, Option.toList_none,
    List.append_nil]

/-- An instruction places all labels before it; no other event places any. -/
theorem place?_eq_some_iff {l : Label} {id : NodeId} : place? es l = some id ↔ LeadsTo es l id := by
  induction es using List.reverseRecOn with
  | nil => simp [place?, placed, marks, sites, sitesFrom, LeadsTo]
  | append_singleton es e ih =>
    cases hhandle : handle? e with
    | none => rw [place?_append_of_none hhandle, leadsTo_append_of_none hhandle, ih]
    | some handle =>
      cases e with
      | instruction handle signature =>
        rw [place?_append_of_instruction, leadsTo_append_of_instruction, lookup_marks_eq_some_iff]
      | _ => cases hhandle

theorem LeadsTo.unique {l : Label} {id id' : NodeId} (h : LeadsTo es l id)
    (h' : LeadsTo es l id') : id = id' :=
  Option.some.inj ((place?_eq_some_iff.mpr h).symm.trans (place?_eq_some_iff.mpr h'))

instance (l : Label) (id : NodeId) : Decidable (LeadsTo es l id) :=
  decidable_of_iff _ place?_eq_some_iff

/-! ## The sites at an instruction -/

/-- The events after an instruction at which it is current, the one that ends it included. -/
def seen (after : List Event) : List Event := own after ++ (ending? after).toList

theorem seen_cons_of_ends {e : Event} (h : ends e = true) : seen (e :: after) = [e] := by
  simp [seen, own, ending?, h]

theorem seen_cons {e : Event} (h : ends e = false) : seen (e :: after) = e :: seen after := by
  simp [seen, own, ending?, h]

theorem ends_of_mem_own {e : Event} (h : e ∈ own after) : ends e = false := by
  simpa using List.mem_takeWhile_imp h

theorem ends_of_ending? {e : Event} (h : ending? after = some e) : ends e = true := by
  have hnot := not_of_head?_dropWhile (Option.mem_def.mpr h)
  simpa using hnot

theorem advance_of_not_ends {e : Event} (h : ends e = false) (c : Cursor) : c.advance e = c := by
  cases e with
  | instruction handle signature => cases h
  | noSuccessor => cases h
  | label l s =>
    cases s with
    | false => cases h
    | true => rfl
  | _ => rfl

theorem current_advance_of_ends {e : Event} (h : ends e = true) (c : Cursor) :
    (c.advance e).current = none ∨ (c.advance e).current = some c.count := by
  cases e with
  | instruction handle signature => exact Or.inr rfl
  | noSuccessor => exact Or.inl rfl
  | label l s =>
    cases s with
    | false => exact Or.inl rfl
    | true => cases h
  | _ => cases h

theorem sitesFrom_append_cons (c : Cursor) (before : List Event) (e : Event) (after : List Event) :
    sitesFrom c (before ++ e :: after) = sitesFrom c before ++
      (before.foldl Cursor.advance c, e) ::
        sitesFrom ((before.foldl Cursor.advance c).advance e) after := by
  induction before generalizing c with
  | nil => rfl
  | cons f before ih => simp [sitesFrom, ih]

/-- The sites before an instruction, that of the instruction itself, and those after it. -/
theorem sites_append_instruction (before : List Event) (handle : Handle)
    (signature : Option String) (after : List Event) :
    sites (before ++ .instruction handle signature :: after) =
      sites before ++ (cursor before, .instruction handle signature) ::
        sitesFrom ⟨(handles before).length + 1, some (handles before).length⟩ after := by
  rw [sites, sitesFrom_append_cons, ← sites, ← cursor, ← count_cursor]
  rfl

/-- An instruction that has ended does not become current again. -/
theorem current_ne_of_mem_sitesFrom {c : Cursor} {id : NodeId} (hc : c.current ≠ some id)
    (hid : id < c.count) {x : Cursor × Event} (hx : x ∈ sitesFrom c es) :
    x.1.current ≠ some id := by
  induction es generalizing c with
  | nil => cases hx
  | cons e es ih =>
    rcases List.mem_cons.mp hx with rfl | hx
    · exact hc
    · refine ih ?_ (Nat.lt_of_lt_of_le hid (count_le_advance c e)) hx
      cases hends : ends e with
      | false => rwa [advance_of_not_ends hends]
      | true =>
        rcases current_advance_of_ends hends c with hnone | hcount
        · simp [hnone]
        · simpa [hcount] using Nat.ne_of_gt hid

theorem filter_sitesFrom_current (id : NodeId) (after : List Event) :
    (sitesFrom ⟨id + 1, some id⟩ after).filter (·.1.current = some id) =
      (seen after).map (⟨id + 1, some id⟩, ·) := by
  induction after with
  | nil => rfl
  | cons e after ih =>
    cases hends : ends e with
    | false =>
      rw [sitesFrom, advance_of_not_ends hends, seen_cons hends, List.map_cons, ← ih]
      simp
    | true =>
      -- from here on another instruction is current, or none
      have hlt : id < ((⟨id + 1, some id⟩ : Cursor).advance e).count :=
        count_le_advance ⟨id + 1, some id⟩ e
      have hcurrent : ((⟨id + 1, some id⟩ : Cursor).advance e).current ≠ some id := by
        rcases current_advance_of_ends hends ⟨id + 1, some id⟩ with hnone | hcount
        · simp [hnone]
        · simp [hcount]
      have hrest : (sitesFrom ((⟨id + 1, some id⟩ : Cursor).advance e) after).filter
          (·.1.current = some id) = [] := by
        rw [List.filter_eq_nil_iff]
        intro x hx
        simpa using current_ne_of_mem_sitesFrom hcurrent hlt hx
      rw [sitesFrom, seen_cons_of_ends hends, List.filter_cons_of_pos (by simp), hrest]
      rfl

/-- The instruction after `before` is current at the events that see it, and nowhere else. -/
theorem filter_sites_current (before : List Event) (handle : Handle) (signature : Option String)
    (after : List Event) :
    (sites (before ++ .instruction handle signature :: after)).filter
        (·.1.current = some (handles before).length) =
      (seen after).map (⟨(handles before).length + 1, some (handles before).length⟩, ·) := by
  have hbefore : ∀ es, (cursor es).count ≤ (handles before).length →
      (cursor es).current ≠ some (handles before).length := fun _ hle hcurrent ↦
    Nat.not_lt.mpr hle (current_lt_count hcurrent)
  have hnil : (sites before).filter (·.1.current = some (handles before).length) = [] := by
    rw [List.filter_eq_nil_iff]
    rintro ⟨c, e⟩ hx
    obtain ⟨pre, post, rfl, rfl⟩ := mem_sites_iff.mp hx
    have hle := count_cursor_append pre (e :: post)
    rw [count_cursor (pre ++ _)] at hle
    simpa using hbefore pre (hle ▸ Nat.le_add_right _ _)
  have hself := hbefore before (Nat.le_of_eq (count_cursor before))
  rw [sites_append_instruction, List.filter_append, hnil, List.nil_append,
    List.filter_cons_of_neg (by simpa using hself), filter_sitesFrom_current]

/-- What the sites say about an instruction, they say at the events that see it. -/
theorem filter_filterMap_sites {β : Type} {f : Cursor → Event → Option β} {p : β → Bool}
    {before : List Event} (hf : ∀ c e b, f c e = some b → p b = true →
      c.current = some (handles before).length) (handle : Handle) (signature : Option String)
    (after : List Event) :
    ((sites (before ++ .instruction handle signature :: after)).filterMap
        fun (c, e) ↦ f c e).filter p =
      (seen after).filterMap fun e ↦
        (f ⟨(handles before).length + 1, some (handles before).length⟩ e).filter p := by
  -- where another instruction is current, `f` says nothing that `p` keeps
  have hsite : ∀ x : Cursor × Event, (f x.1 x.2).filter p =
      if x.1.current = some (handles before).length then (f x.1 x.2).filter p else none := by
    intro x
    split
    next => rfl
    next hne =>
      rw [Option.filter_eq_none_iff]
      exact fun b hb hp ↦ hne (hf _ _ b hb hp)
  calc ((sites (before ++ .instruction handle signature :: after)).filterMap
        fun (c, e) ↦ f c e).filter p
      = (sites (before ++ .instruction handle signature :: after)).filterMap
          fun x ↦ (f x.1 x.2).filter p := List.filter_filterMap
    _ = ((sites (before ++ .instruction handle signature :: after)).filter
          (·.1.current = some (handles before).length)).filterMap
            fun x ↦ (f x.1 x.2).filter p := by
        rw [List.filterMap_filter]
        simp only [decide_eq_true_eq]
        exact congrArg (List.filterMap · _) (funext hsite)
    _ = _ := by
        rw [filter_sites_current, List.filterMap_map]
        rfl

/-! ## The parts of an instruction -/

/-- The branches that lead to the instruction after `before`, the jumps being `js`: first the one
that falls through to it. -/
def entries (es : List Event) (js : List Jump) (before : List Event) : List Branch :=
  (if HasCurrent before then [⟨(handles before).length - 1, 0⟩] else []) ++
    (js.filter (LeadsTo es ·.target (handles before).length)).map fun j ↦ ⟨j.source, j.branch⟩

theorem countP_add_countP {α : Type} {p q r : α → Bool} {l : List α}
    (h : ∀ a ∈ l, (if p a then 1 else 0) + (if q a then 1 else 0) = if r a then 1 else 0) :
    l.countP p + l.countP q = l.countP r := by
  induction l with
  | nil => rfl
  | cons a l ih =>
    have ha := h a List.mem_cons_self
    have hl := ih fun b hb ↦ h b (List.mem_cons_of_mem a hb)
    rw [List.countP_cons, List.countP_cons, List.countP_cons]
    omega

section Instruction

variable (before : List Event) (handle : Handle) (signature : Option String) (after : List Event)

theorem current_of_map {α : Type} (source : α → NodeId) {c : Cursor} {f : NodeId → α}
    (hf : ∀ id, source (f id) = id) {a : α} {id : NodeId} (h : c.current.map f = some a)
    (ha : decide (source a = id) = true) : c.current = some id := by
  obtain ⟨id', hid', rfl⟩ := Option.map_eq_some_iff.mp h
  rw [hid', ← of_decide_eq_true ha, hf]

theorem lastProbe?_instruction :
    lastProbe? (before ++ .instruction handle signature :: after) (handles before).length =
      ((own after).filterMap probeId?).getLast? := by
  have hf : ∀ c e b, probe? c e = some b → decide (b.1.node = (handles before).length) = true →
      c.current = some (handles before).length := by
    intro c e b hb hnode
    cases e with
    | probe p i => exact current_of_map (·.1.node) (fun _ ↦ rfl) hb hnode
    | _ => cases hb
  have hid : (fun e ↦ ((probe? ⟨(handles before).length + 1, some (handles before).length⟩ e).filter
      (·.1.node = (handles before).length)).map (·.2)) = probeId? := by
    funext e
    cases e <;> simp [probe?, probeId?]
  have hending : (ending? after).toList.filterMap probeId? = [] := by
    rw [List.filterMap_eq_nil_iff]
    intro e he
    have hends := ends_of_ending? (Option.mem_toList.mp he)
    cases e with
    | probe p i => cases hends
    | _ => rfl
  rw [lastProbe?, probes, filter_filterMap_sites hf, ← List.getLast?_map, List.map_filterMap, hid,
    seen, List.filterMap_append, hending, List.append_nil]

theorem countP_filterMap_sites {β : Type} {f : Cursor → Event → Option β} {p : β → Bool}
    (hf : ∀ c e b, f c e = some b → p b = true → c.current = some (handles before).length) :
    ((sites (before ++ .instruction handle signature :: after)).filterMap
        fun (c, e) ↦ f c e).countP p =
      (seen after).countP fun e ↦
        ((f ⟨(handles before).length + 1, some (handles before).length⟩ e).filter p).isSome := by
  rw [List.countP_eq_length_filter, filter_filterMap_sites hf, List.length_filterMap_eq_countP]

theorem countP_registered :
    (registered (before ++ .instruction handle signature :: after)).countP
        (·.node = (handles before).length) =
      (seen after).countP fun e ↦ (probeId? e).isSome || (handle? e).isSome := by
  have hf : ∀ c e b, register? c e = some b → decide (b.node = (handles before).length) = true →
      c.current = some (handles before).length := by
    intro c e b hb hnode
    cases e with
    | probe p i => exact current_of_map Branch.node (fun _ ↦ rfl) hb hnode
    | instruction h s => exact current_of_map Branch.node (fun _ ↦ rfl) hb hnode
    | _ => cases hb
  rw [registered, countP_filterMap_sites _ _ _ _ hf]
  congr 1
  funext e
  cases e <;> simp [register?, probeId?, handle?]

theorem countP_jumps :
    (jumps (before ++ .instruction handle signature :: after)).countP
        (·.source = (handles before).length) = (seen after).countP isJump := by
  have hf : ∀ c e j, jump? c e = some j → decide (j.source = (handles before).length) = true →
      c.current = some (handles before).length := by
    intro c e j hj hsource
    cases e with
    | jump l i => exact current_of_map Jump.source (fun _ ↦ rfl) hj hsource
    | _ => cases hj
  rw [jumps, countP_filterMap_sites _ _ _ _ hf]
  congr 1
  funext e
  cases e <;> simp [jump?, isJump]

theorem countP_seen : (seen after).countP (fun e ↦ (branch? e).isSome || (handle? e).isSome) =
    (own after).countP (fun e ↦ (branch? e).isSome) + if fallsThrough after then 1 else 0 := by
  rw [seen, List.countP_append]
  congr 1
  · refine List.countP_congr fun e he ↦ ?_
    have hends := ends_of_mem_own he
    cases e with
    | instruction h s => cases hends
    | _ => simp [handle?]
  · rw [fallsThrough]
    cases hending : ending? after with
    | none => rfl
    | some e =>
      have hends := ends_of_ending? hending
      cases e with
      | jump l i => cases hends
      | probe p i => cases hends
      | _ => rfl

/-- The branches of an instruction are its probes and jumps, and the fall to the next one. -/
theorem countP_branches :
    (registered (before ++ .instruction handle signature :: after)).countP
        (·.node = (handles before).length) +
      (jumps (before ++ .instruction handle signature :: after)).countP
        (·.source = (handles before).length) =
      (own after).countP (fun e ↦ (branch? e).isSome) + if fallsThrough after then 1 else 0 := by
  rw [countP_registered, countP_jumps, ← countP_seen]
  apply countP_add_countP
  intro e _
  cases e <;> rfl

theorem le_count_of_mem_sitesFrom {es : List Event} {c : Cursor} {x : Cursor × Event}
    (hx : x ∈ sitesFrom c es) : c.count ≤ x.1.count := by
  induction es generalizing c with
  | nil => cases hx
  | cons e es ih =>
    rcases List.mem_cons.mp hx with rfl | hx
    · exact Nat.le_refl _
    · exact Nat.le_trans (count_le_advance c e) (ih hx)

theorem filter_falls_instruction :
    ((falls (before ++ .instruction handle signature :: after)).filter
        (·.target = (handles before).length)).map (·.via) =
      if HasCurrent before then [⟨(handles before).length - 1, 0⟩] else [] := by
  have hbefore : (falls before).filter (·.target = (handles before).length) = [] := by
    rw [List.filter_eq_nil_iff]
    intro x hx
    have hlt := target_lt_of_mem_falls hx
    rw [count_cursor] at hlt
    simpa using Nat.ne_of_lt hlt
  have hafter : ((sitesFrom ⟨(handles before).length + 1, some (handles before).length⟩
      after).filterMap fun (c, e) ↦ fall? c e).filter
        (·.target = (handles before).length) = [] := by
    rw [List.filter_eq_nil_iff]
    intro x hx
    obtain ⟨⟨c, e⟩, hmem, hfall⟩ := List.mem_filterMap.mp hx
    have hle := le_count_of_mem_sitesFrom hmem
    cases e with
    | instruction h s =>
      obtain ⟨previous, -, rfl⟩ := Option.map_eq_some_iff.mp hfall
      simpa using Nat.ne_of_gt hle
    | _ => cases hfall
  rw [falls, sites_append_instruction, List.filterMap_append, ← falls, List.filter_append, hbefore,
    List.nil_append]
  by_cases h : HasCurrent before
  · obtain ⟨previous, hprevious⟩ := Option.isSome_iff_exists.mp (isSome_current_iff.mpr h)
    have hfall : fall? (cursor before) (.instruction handle signature) =
        some ⟨⟨(handles before).length - 1, 0⟩, (handles before).length⟩ := by
      rw [fall?, hprevious, ← (current_eq_some_iff.mp hprevious).2, ← current_succ hprevious]
      rfl
    rw [List.filterMap_cons_some (f := fun (c, e) ↦ fall? c e) (a := (_, _)) hfall,
      List.filter_cons_of_pos (by simp), hafter, if_pos h]
    rfl
  · have hfall : fall? (cursor before) (.instruction handle signature) = none := by
      rw [fall?, Option.not_isSome_iff_eq_none.mp (mt isSome_current_iff.mp h), Option.map_none]
    rw [List.filterMap_cons_none (f := fun (c, e) ↦ fall? c e) (a := (_, _)) hfall, hafter,
      if_neg h]
    rfl

end Instruction

/-- The jumps that are wired into an instruction are those whose label leads to it. -/
theorem filter_edgeOf? (es : List Event) (js : List Jump) (id : NodeId) :
    ((js.filterMap (edgeOf? es)).filter (·.target = id)).map (·.via) =
      (js.filter (LeadsTo es ·.target id)).map fun j ↦ ⟨j.source, j.branch⟩ := by
  induction js with
  | nil => rfl
  | cons j js ih =>
    have hiff : LeadsTo es j.target id ↔ place? es j.target = some id := place?_eq_some_iff.symm
    cases hplace : place? es j.target with
    | none => simp [edgeOf?, hplace, hiff, ih]
    | some target => by_cases hid : target = id <;> simp [edgeOf?, hplace, hiff, ih, hid]

theorem filter_edges_instruction (before : List Event) (handle : Handle)
    (signature : Option String) (after : List Event) :
    ((edges (before ++ .instruction handle signature :: after)).filter
        (·.target = (handles before).length)).map (·.via) =
      entries (before ++ .instruction handle signature :: after)
        (jumps (before ++ .instruction handle signature :: after)) before := by
  rw [edges, List.filter_append, List.map_append, filter_falls_instruction, filter_edgeOf?, entries]

end Stream

end ProbeCoverage
