import Mathlib.Algebra.BigOperators.Group.List.Basic
import ProbeCoverage.Proofs.Counting

/-!
# Counting is adding

Counters, lines and tables of lines can be added up without a bound. A count that does not overflow
is such a sum, and it overflows only if some sum does not fit; so the order in which items are
counted does not matter.
-/

namespace ProbeCoverage

theorem addBelow_eq_ok_iff {bound a b n : Nat} :
    addBelow bound a b = .ok n ↔ n = a + b ∧ a + b < bound := by
  unfold addBelow
  split
  next h => simp [h, eq_comm]
  next h => simp [h]

/-- Items that are counted one by one, each only if the sum fits: all sums fit if the last does. -/
theorem foldlM_eq_ok_iff {α β : Type} {f : β → α → Except Fault β} {g : β → α → β}
    {Fits : β → Prop}
    (hf : ∀ b a b', Fits b → (f b a = .ok b' ↔ b' = g b a ∧ Fits (g b a)))
    (hfits : ∀ b a, Fits (g b a) → Fits b) {l : List α} {b b' : β} (hb : Fits b) :
    l.foldlM f b = .ok b' ↔ b' = l.foldl g b ∧ Fits (l.foldl g b) := by
  -- a sum that fits is a sum of things that fit
  have hstart : ∀ (l : List α) b, Fits (l.foldl g b) → Fits b := by
    intro l
    induction l with
    | nil => exact fun _ h ↦ h
    | cons a l ih => exact fun b h ↦ hfits b a (ih _ h)
  induction l generalizing b with
  | nil =>
    simp only [List.foldlM_nil, List.foldl_nil, hb, and_true]
    exact ⟨fun h ↦ (Except.ok.inj h).symm, fun h ↦ congrArg Except.ok h.symm⟩
  | cons a l ih =>
    rw [List.foldlM_cons, List.foldl_cons, bind_eq_ok_iff]
    constructor
    · rintro ⟨c, hc, hrest⟩
      obtain ⟨rfl, hfit⟩ := (hf b a c hb).mp hc
      exact (ih hfit).mp hrest
    · intro h
      have hfit := hstart l _ h.2
      exact ⟨_, (hf b a _ hb).mpr ⟨rfl, hfit⟩, (ih hfit).mpr h⟩

/-! ## Counters -/

namespace Counter

attribute [ext] Counter

instance : Zero Counter := ⟨∅⟩

instance : Add Counter := ⟨fun c d ↦ ⟨c.missed + d.missed, c.covered + d.covered⟩⟩

@[simp] theorem missed_zero : (0 : Counter).missed = 0 := rfl

@[simp] theorem covered_zero : (0 : Counter).covered = 0 := rfl

@[simp] theorem missed_add (c d : Counter) : (c + d).missed = c.missed + d.missed := rfl

@[simp] theorem covered_add (c d : Counter) : (c + d).covered = c.covered + d.covered := rfl

instance : AddCommMonoid Counter where
  add_assoc c d e := by ext <;> simp [Nat.add_assoc]
  zero_add c := by ext <;> simp
  add_zero c := by ext <;> simp
  add_comm c d := by ext <;> simp [Nat.add_comm]
  nsmul := nsmulRec

@[simp] theorem items_zero : (0 : Counter).items = 0 := rfl

@[simp] theorem items_add (c d : Counter) : (c + d).items = c.items + d.items := by
  simp only [items, missed_add, covered_add]
  omega

/-- Both counts are representable. -/
structure Fits (c : Counter) : Prop where
  missed : c.missed < countBound
  covered : c.covered < countBound

theorem fits_zero : (0 : Counter).Fits := ⟨by decide, by decide⟩

theorem Fits.of_add {c d : Counter} (h : (c + d).Fits) : c.Fits :=
  ⟨Nat.lt_of_le_of_lt (Nat.le_add_right _ _) h.missed,
    Nat.lt_of_le_of_lt (Nat.le_add_right _ _) h.covered⟩

theorem add_eq_ok_iff {c d e : Counter} : c.add d = .ok e ↔ e = c + d ∧ (c + d).Fits := by
  simp only [add, increment, bind_eq_ok_iff, addBelow_eq_ok_iff]
  constructor
  · rintro ⟨m, ⟨rfl, hm⟩, k, ⟨rfl, hk⟩, h⟩
    cases h
    exact ⟨rfl, hm, hk⟩
  · rintro ⟨rfl, h⟩
    exact ⟨_, ⟨rfl, h.missed⟩, _, ⟨rfl, h.covered⟩, rfl⟩

theorem total_eq_ok_iff {c : Counter} {n : Nat} :
    c.total = .ok n ↔ n = c.items ∧ c.items < countBound := addBelow_eq_ok_iff

/-- What a decision with these branches adds to the complexity. -/
def decision (branches : Counter) : Counter :=
  if 1 < branches.items then ⟨branches.items - (branches.covered - 1 + 1), branches.covered - 1⟩
  else 0

end Counter

/-! ## Lines -/

namespace LineReport

attribute [ext] LineReport

instance : Zero LineReport := ⟨{}⟩

instance : Add LineReport := ⟨fun r s ↦ ⟨r.instructions + s.instructions, r.branches + s.branches⟩⟩

@[simp] theorem instructions_zero : (0 : LineReport).instructions = 0 := rfl

@[simp] theorem branches_zero : (0 : LineReport).branches = 0 := rfl

@[simp] theorem instructions_add (r s : LineReport) :
    (r + s).instructions = r.instructions + s.instructions := rfl

@[simp] theorem branches_add (r s : LineReport) : (r + s).branches = r.branches + s.branches := rfl

instance : AddCommMonoid LineReport where
  add_assoc r s t := by ext1 <;> simp [add_assoc]
  zero_add r := by ext1 <;> simp
  add_zero r := by ext1 <;> simp
  add_comm r s := by ext1 <;> simp [add_comm]
  nsmul := nsmulRec

structure Fits (r : LineReport) : Prop where
  instructions : r.instructions.Fits
  branches : r.branches.Fits

theorem fits_zero : (0 : LineReport).Fits := ⟨Counter.fits_zero, Counter.fits_zero⟩

theorem Fits.of_add {r s : LineReport} (h : (r + s).Fits) : r.Fits :=
  ⟨h.instructions.of_add, h.branches.of_add⟩

theorem increment_eq_ok_iff {r r' : LineReport} {i b : Counter} :
    r.increment i b = .ok r' ↔ r' = r + ⟨i, b⟩ ∧ (r + ⟨i, b⟩).Fits := by
  simp only [increment, bind_eq_ok_iff, Counter.add_eq_ok_iff]
  constructor
  · rintro ⟨i', ⟨rfl, hi⟩, b', ⟨rfl, hb⟩, h⟩
    cases h
    exact ⟨rfl, hi, hb⟩
  · rintro ⟨rfl, h⟩
    exact ⟨_, ⟨rfl, h.instructions⟩, _, ⟨rfl, h.branches⟩, rfl⟩

end LineReport

namespace LineTable

variable {t u v : LineTable} {line l : Nat} {r : LineReport}

theorem ext_get? (h : ∀ line, t.get? line = u.get? line) : t = u := by
  cases t
  cases u
  exact congrArg mk (Std.ExtTreeMap.ext_getElem? h)

def addLine (t : LineTable) (line : Nat) (r : LineReport) : LineTable :=
  ⟨t.lines.insert line (t.lineAt line + r)⟩

theorem get?_addLine : (t.addLine line r).get? l =
    if line = l then some (t.lineAt line + r) else t.get? l := by
  simp [addLine, get?, Std.ExtTreeMap.getElem?_insert]

instance : Zero LineTable := ⟨∅⟩

@[simp] theorem get?_zero : (0 : LineTable).get? line = none := Std.ExtTreeMap.getElem?_empty

instance : Add LineTable := ⟨fun t u ↦ u.toList.foldl (fun t (line, r) ↦ t.addLine line r) t⟩

@[simp] theorem lineAt_addLine_self : (t.addLine line r).lineAt line = t.lineAt line + r := by
  simp [lineAt, get?_addLine]

theorem lineAt_addLine_of_ne (h : line ≠ l) : (t.addLine line r).lineAt l = t.lineAt l := by
  simp [lineAt, get?_addLine, h]

theorem get?_foldl_addLine {ps : List (Nat × LineReport)} (hkeys : (ps.map Prod.fst).Nodup) :
    (∀ r, (l, r) ∈ ps → (ps.foldl (fun t (line, r) ↦ t.addLine line r) t).get? l =
        some (t.lineAt l + r)) ∧
      (l ∉ ps.map Prod.fst →
        (ps.foldl (fun t (line, r) ↦ t.addLine line r) t).get? l = t.get? l) := by
  induction ps generalizing t with
  | nil => simp
  | cons p ps ih =>
    obtain ⟨line, s⟩ := p
    rw [List.map_cons, List.nodup_cons] at hkeys
    obtain ⟨hmem, hnot⟩ := ih (t := t.addLine line s) hkeys.2
    rw [List.foldl_cons]
    refine ⟨fun r hr ↦ ?_, fun hl ↦ ?_⟩
    · rcases List.mem_cons.mp hr with heq | hr
      · cases heq
        rw [hnot hkeys.1, get?_addLine, if_pos rfl]
      · have hne : line ≠ l := fun heq ↦
          hkeys.1 (List.mem_map.mpr ⟨(l, r), hr, heq.symm⟩)
        rw [hmem r hr, lineAt_addLine_of_ne hne]
    · rw [List.map_cons, List.mem_cons, not_or] at hl
      rw [hnot hl.2, get?_addLine, if_neg (Ne.symm hl.1)]

/-- A line that both tables have is added up. -/
theorem get?_add (t u : LineTable) (l : Nat) :
    (t + u).get? l = Option.merge (· + ·) (t.get? l) (u.get? l) := by
  obtain ⟨hmem, hnot⟩ := get?_foldl_addLine (t := t) (l := l) u.nodup_keys
  change (u.toList.foldl (fun t (line, r) ↦ t.addLine line r) t).get? l = _
  cases hu : u.get? l with
  | none =>
    have hl : l ∉ u.toList.map Prod.fst := by
      intro hl
      obtain ⟨⟨l', r⟩, hp, rfl⟩ := List.mem_map.mp hl
      rw [mem_toList_iff.mp hp] at hu
      cases hu
    rw [hnot hl, Option.merge_none_right]
  | some r =>
    rw [hmem r (mem_toList_iff.mpr hu), lineAt]
    cases t.get? l with
    | none => exact congrArg some (zero_add r)
    | some s => rfl

instance : AddCommMonoid LineTable where
  add_assoc t u v := by
    refine ext_get? fun l ↦ ?_
    simp only [get?_add]
    cases t.get? l <;> cases u.get? l <;> cases v.get? l <;> simp [add_assoc]
  zero_add t := ext_get? fun l ↦ by simp [get?_add]
  add_zero t := ext_get? fun l ↦ by simp [get?_add]
  add_comm t u := by
    refine ext_get? fun l ↦ ?_
    simp only [get?_add]
    cases t.get? l <;> cases u.get? l <;> simp [add_comm]
  nsmul := nsmulRec

@[simp] theorem lineAt_zero : (0 : LineTable).lineAt l = 0 := by
  rw [lineAt, get?_zero]
  rfl

@[simp] theorem lineAt_add : (t + u).lineAt l = t.lineAt l + u.lineAt l := by
  rw [lineAt, lineAt, lineAt, get?_add]
  cases t.get? l with
  | none =>
    rw [Option.merge_none_left]
    exact (zero_add ((u.get? l).getD 0)).symm
  | some r =>
    cases u.get? l with
    | none => exact (add_zero r).symm
    | some s => rfl

/-- The table of one line. -/
def single (line : Nat) (r : LineReport) : LineTable := addLine 0 line r

theorem addLine_eq_add (t : LineTable) (line : Nat) (r : LineReport) :
    t.addLine line r = t + single line r := by
  refine ext_get? fun l ↦ ?_
  rw [get?_add, single, get?_addLine, get?_addLine, lineAt_zero, zero_add, get?_zero, lineAt]
  split
  next h =>
    subst h
    cases t.get? line with
    | none => exact congrArg some (zero_add r)
    | some s => rfl
  next => rw [Option.merge_none_right]

def Fits (t : LineTable) : Prop := ∀ line, (t.lineAt line).Fits

theorem fits_zero : (0 : LineTable).Fits := fun _ ↦ by
  rw [lineAt_zero]
  exact LineReport.fits_zero

theorem Fits.of_add (h : (t + u).Fits) : t.Fits := fun line ↦
  LineReport.Fits.of_add (lineAt_add ▸ h line)

theorem fits_addLine_iff (h : t.Fits) : (t.addLine line r).Fits ↔ (t.lineAt line + r).Fits := by
  constructor
  · intro hfits
    rw [← lineAt_addLine_self]
    exact hfits line
  · intro hfits l
    by_cases hl : line = l
    · subst hl
      rw [lineAt_addLine_self]
      exact hfits
    · rw [lineAt_addLine_of_ne hl]
      exact h l

theorem increment_eq_ok_iff {i b : Counter} : t.increment line i b = .ok u ↔
    u = t.addLine line ⟨i, b⟩ ∧ (t.lineAt line + ⟨i, b⟩).Fits := by
  simp only [increment, bind_eq_ok_iff, LineReport.increment_eq_ok_iff]
  constructor
  · rintro ⟨r, ⟨rfl, hfits⟩, h⟩
    cases h
    exact ⟨rfl, hfits⟩
  · rintro ⟨rfl, hfits⟩
    exact ⟨_, ⟨rfl, hfits⟩, rfl⟩

theorem merge_eq_ok_iff (h : t.Fits) : t.merge u = .ok v ↔ v = t + u ∧ (t + u).Fits := by
  refine foldlM_eq_ok_iff (g := fun t (line, r) ↦ t.addLine line r) ?_ ?_ h
  · rintro t ⟨line, r⟩ u ht
    rw [increment_eq_ok_iff, fits_addLine_iff ht]
  · rintro t ⟨line, r⟩ hfits
    have hsum : (t + single line r).Fits := addLine_eq_add t line r ▸ hfits
    exact hsum.of_add

end LineTable

/-! ## Reports -/

/-- The counters and lines that a report sums up. -/
@[ext]
structure Totals where
  instructions : Counter
  branches : Counter
  complexity : Counter
  methods : Counter
  lines : LineTable

namespace Totals

variable {t u : Totals}

instance : Zero Totals := ⟨⟨0, 0, 0, 0, 0⟩⟩

instance : Add Totals := ⟨fun t u ↦ ⟨t.instructions + u.instructions, t.branches + u.branches,
  t.complexity + u.complexity, t.methods + u.methods, t.lines + u.lines⟩⟩

@[simp] theorem instructions_zero : (0 : Totals).instructions = 0 := rfl

@[simp] theorem branches_zero : (0 : Totals).branches = 0 := rfl

@[simp] theorem complexity_zero : (0 : Totals).complexity = 0 := rfl

@[simp] theorem methods_zero : (0 : Totals).methods = 0 := rfl

@[simp] theorem lines_zero : (0 : Totals).lines = 0 := rfl

@[simp] theorem instructions_add : (t + u).instructions = t.instructions + u.instructions := rfl

@[simp] theorem branches_add : (t + u).branches = t.branches + u.branches := rfl

@[simp] theorem complexity_add : (t + u).complexity = t.complexity + u.complexity := rfl

@[simp] theorem methods_add : (t + u).methods = t.methods + u.methods := rfl

@[simp] theorem lines_add : (t + u).lines = t.lines + u.lines := rfl

instance : AddCommMonoid Totals where
  add_assoc t u v := by ext1 <;> simp [add_assoc]
  zero_add t := by ext1 <;> simp
  add_zero t := by ext1 <;> simp
  add_comm t u := by ext1 <;> simp [add_comm]
  nsmul := nsmulRec

structure Fits (t : Totals) : Prop where
  instructions : t.instructions.Fits
  branches : t.branches.Fits
  complexity : t.complexity.Fits
  methods : t.methods.Fits
  lines : t.lines.Fits

theorem fits_zero : (0 : Totals).Fits :=
  ⟨Counter.fits_zero, Counter.fits_zero, Counter.fits_zero, Counter.fits_zero, LineTable.fits_zero⟩

theorem Fits.of_add (h : (t + u).Fits) : t.Fits :=
  ⟨h.instructions.of_add, h.branches.of_add, h.complexity.of_add, h.methods.of_add,
    h.lines.of_add⟩

/-- What an instruction with these counters adds to the report on its method. -/
def ofItem (instructions branches : Counter) (line : Option Nat) : Totals where
  instructions := instructions
  branches := branches
  complexity := branches.decision
  methods := 0
  lines := line.elim 0 (LineTable.single · ⟨instructions, branches⟩)

/-- What the method itself adds. -/
def ofMethod (covered : Bool) : Totals where
  instructions := 0
  branches := 0
  complexity := Counter.one covered
  methods := Counter.one covered
  lines := 0

end Totals

namespace MethodReport

variable {r r' : MethodReport}

def totals (r : MethodReport) : Totals :=
  ⟨r.instructions, r.branches, r.complexity, r.methods, r.lines⟩

def plus (r : MethodReport) (t : Totals) : MethodReport :=
  { r with
    instructions := r.instructions + t.instructions
    branches := r.branches + t.branches
    complexity := r.complexity + t.complexity
    methods := r.methods + t.methods
    lines := r.lines + t.lines }

@[simp] theorem totals_plus (r : MethodReport) (t : Totals) :
    (r.plus t).totals = r.totals + t := rfl

theorem plus_zero (r : MethodReport) : r.plus 0 = r := by
  simp [plus]

theorem plus_plus (r : MethodReport) (t u : Totals) : (r.plus t).plus u = r.plus (t + u) := by
  simp [plus, add_assoc]

theorem eq_of_decisionCounter {b c : Counter} (h : decisionCounter b = .ok c) : c = b.decision := by
  simp only [decisionCounter, bind_eq_ok_iff, Counter.total_eq_ok_iff] at h
  obtain ⟨n, ⟨rfl, -⟩, h⟩ := h
  rw [Counter.decision]
  split at h <;> cases h
  next hmany => rw [if_pos hmany]
  next hone =>
    rw [if_neg hone]
    rfl

theorem eq_of_incrementLine {t u : LineTable} {i b : Counter} {line : Option Nat}
    (h : incrementLine t i b line = .ok u) : u = t + line.elim 0 (LineTable.single · ⟨i, b⟩) := by
  cases line with
  | none =>
    cases h
    exact (add_zero t).symm
  | some line => exact (LineTable.increment_eq_ok_iff.mp h).1.trans (t.addLine_eq_add line _)

theorem eq_plus_of_increment {i b : Counter} {line : Option Nat}
    (h : r.increment i b line = .ok r') : r' = r.plus (.ofItem i b line) := by
  simp only [increment, bind_eq_ok_iff, Counter.add_eq_ok_iff] at h
  obtain ⟨i', ⟨rfl, -⟩, b', ⟨rfl, -⟩, t, ht, d, hd, c, ⟨rfl, -⟩, h⟩ := h
  cases h
  obtain rfl := eq_of_incrementLine ht
  obtain rfl := eq_of_decisionCounter hd
  simp [plus, Totals.ofItem]

theorem eq_plus_of_incrementMethod (h : r.incrementMethod = .ok r') :
    r' = r.plus (.ofMethod (r.instructions.covered ≠ 0)) := by
  simp only [incrementMethod, bind_eq_ok_iff, Counter.add_eq_ok_iff] at h
  obtain ⟨m, ⟨rfl, -⟩, c, ⟨rfl, -⟩, h⟩ := h
  cases h
  simp [plus, Totals.ofMethod]

def hasCode (r : MethodReport) : Bool := 0 < r.instructions.items

theorem containsCode_eq_ok_iff {b : Bool} :
    r.containsCode = .ok b ↔ b = r.hasCode ∧ r.instructions.items < countBound := by
  simp only [containsCode, bind_eq_ok_iff, Counter.total_eq_ok_iff]
  constructor
  · rintro ⟨n, ⟨rfl, hn⟩, h⟩
    cases h
    exact ⟨rfl, hn⟩
  · rintro ⟨rfl, hn⟩
    exact ⟨_, ⟨rfl, hn⟩, rfl⟩

end MethodReport

def Node.totals (n : Node) : Totals := .ofItem n.instructionCounter n.branchCounter n.line

/-- The sum of the instructions that are reported. -/
def Selection.totals (g : FlowGraph) (s : Selection) : Totals :=
  ((s.reported g).map Node.totals).sum

theorem Node.eq_plus_of_foldlM_increment {l : List Node} {r r' : MethodReport}
    (h : l.foldlM (fun r n ↦ r.increment n.instructionCounter n.branchCounter n.line) r = .ok r') :
    r' = r.plus (l.map Node.totals).sum := by
  induction l generalizing r with
  | nil => exact (Except.ok.inj h).symm.trans r.plus_zero.symm
  | cons n l ih =>
    rw [List.foldlM_cons, bind_eq_ok_iff] at h
    obtain ⟨c, hc, hrest⟩ := h
    obtain rfl := MethodReport.eq_plus_of_increment hc
    rw [ih hrest, MethodReport.plus_plus, List.map_cons, List.sum_cons]
    rfl

theorem Selection.eq_plus_of_tally {g : FlowGraph} {s : Selection} {r r' : MethodReport}
    (h : s.tally g r = .ok r') : r' = (r.plus (s.totals g)).plus
      (.ofMethod ((r.plus (s.totals g)).instructions.covered ≠ 0)) := by
  obtain ⟨c, hc, hmethod⟩ := bind_eq_ok_iff.mp h
  obtain rfl := Node.eq_plus_of_foldlM_increment hc
  exact MethodReport.eq_plus_of_incrementMethod hmethod

namespace ClassReport

variable {r r' : ClassReport} {m : MethodReport}

def totals (r : ClassReport) : Totals :=
  ⟨r.instructions, r.branches, r.complexity, r.methodCounter, r.lines⟩

/-- The report with one more method. -/
def plus (r : ClassReport) (m : MethodReport) : ClassReport :=
  { r with
    methods := r.methods.push m
    instructions := r.instructions + m.instructions
    branches := r.branches + m.branches
    complexity := r.complexity + m.complexity
    methodCounter := r.methodCounter + m.methods
    lines := r.lines + m.lines }

@[simp] theorem totals_plus (r : ClassReport) (m : MethodReport) :
    (r.plus m).totals = r.totals + m.totals := rfl

theorem addMethod_eq_ok_iff (h : r.totals.Fits) :
    r.addMethod m = .ok r' ↔ r' = r.plus m ∧ (r.plus m).totals.Fits := by
  have hlines : r.lines.Fits := h.lines
  simp only [addMethod, bind_eq_ok_iff, Counter.add_eq_ok_iff, LineTable.merge_eq_ok_iff hlines]
  constructor
  · rintro ⟨i, ⟨rfl, hi⟩, b, ⟨rfl, hb⟩, c, ⟨rfl, hc⟩, k, ⟨rfl, hk⟩, t, ⟨rfl, ht⟩, h⟩
    cases h
    exact ⟨rfl, hi, hb, hc, hk, ht⟩
  · rintro ⟨rfl, hfits⟩
    exact ⟨_, ⟨rfl, hfits.instructions⟩, _, ⟨rfl, hfits.branches⟩, _, ⟨rfl, hfits.complexity⟩, _,
      ⟨rfl, hfits.methods⟩, _, ⟨rfl, hfits.lines⟩, rfl⟩

theorem fits_ofClass (c : ClassDecl) : (ClassReport.ofClass c).totals.Fits := Totals.fits_zero

end ClassReport

end ProbeCoverage
