import Mathlib.Data.List.TakeWhile
import ProbeCoverage.Filter
import ProbeCoverage.Selection
import ProbeCoverage.Proofs.Acceptance
import ProbeCoverage.Proofs.MatchKey

/-!
# The built-in filters

A method is dropped for what it and its class declare: that the compiler made it, or that an
annotation marks it as generated. The code of a dropped method is skipped from its first to its last
instruction, that of any other method is left alone.
-/

namespace ProbeCoverage

namespace Filter

/-! ## Names of annotations -/

/-- The name of an annotation type is what follows the last `/` or `$` of its descriptor, without
the `;` at the end. -/
structure SimpleName (desc name : List Char) : Prop where
  parts : ∃ qualifier k, desc = qualifier ++ name ++ List.replicate k ';' ∧
    (∀ c ∈ qualifier.getLast?, c = '/' ∨ c = '$') ∧ ∀ c ∈ (qualifier ++ name).getLast?, c ≠ ';'
  plain : ∀ c ∈ name, c ≠ '/' ∧ c ≠ '$'

theorem simpleName_spec (desc : String) : SimpleName desc.toList (simpleName desc) := by
  obtain ⟨ends, hends⟩ : ∃ ends, desc.toList.reverse.takeWhile (· = ';') = ends := ⟨_, rfl⟩
  obtain ⟨trimmed, htrimmed⟩ : ∃ trimmed, desc.toList.reverse.dropWhile (· = ';') = trimmed :=
    ⟨_, rfl⟩
  have hsplit : desc.toList = trimmed.reverse ++ List.replicate ends.length ';' := by
    have hsemi : ends = List.replicate ends.length ';' := by
      refine List.eq_replicate_of_mem fun c hc ↦ ?_
      rw [← hends] at hc
      simpa using List.mem_takeWhile_imp hc
    rw [← List.reverse_inj, List.reverse_append, List.reverse_reverse, List.reverse_replicate,
      ← hsemi, ← hends, ← htrimmed, List.takeWhile_append_dropWhile]
  have hparts : (trimmed.dropWhile fun c ↦ c ≠ '/' && c ≠ '$').reverse ++ simpleName desc =
      trimmed.reverse := by
    rw [simpleName, htrimmed, ← List.reverse_append, List.takeWhile_append_dropWhile]
  refine ⟨⟨_, ends.length, hparts ▸ hsplit, fun c hc ↦ ?_, fun c hc ↦ ?_⟩, fun c hc ↦ ?_⟩
  · rw [List.getLast?_reverse] at hc
    have hnot := not_of_head?_dropWhile hc
    simpa [or_iff_not_imp_left] using hnot
  · rw [hparts, List.getLast?_reverse, ← htrimmed] at hc
    simpa using not_of_head?_dropWhile hc
  · rw [simpleName, htrimmed, List.mem_reverse] at hc
    simpa using List.mem_takeWhile_imp hc

theorem SimpleName.unique {desc name name' : List Char} (h : SimpleName desc name)
    (h' : SimpleName desc name') : name = name' := by
  obtain ⟨⟨qualifier, k, hdesc, hqualifier, hend⟩, hplain⟩ := h
  obtain ⟨⟨qualifier', k', hdesc', hqualifier', hend'⟩, hplain'⟩ := h'
  have heq : List.replicate k ';' ++ (name.reverse ++ qualifier.reverse) =
      List.replicate k' ';' ++ (name'.reverse ++ qualifier'.reverse) := by
    have hreverse := congrArg List.reverse (hdesc.symm.trans hdesc')
    simpa using hreverse
  -- read from the right: first the `;`, then the name, then a `/` or `$`
  obtain ⟨-, heq⟩ := append_inj_of_head (p := (· = ';')) (by simp) (by simp)
    (by simpa [← List.reverse_append, List.head?_reverse] using hend)
    (by simpa [← List.reverse_append, List.head?_reverse] using hend') heq
  obtain ⟨heq, -⟩ := append_inj_of_head (p := fun c ↦ c ≠ '/' ∧ c ≠ '$') (by simpa using hplain)
    (by simpa using hplain') (by simpa [List.head?_reverse, or_iff_not_imp_left] using hqualifier)
    (by simpa [List.head?_reverse, or_iff_not_imp_left] using hqualifier') heq
  exact List.reverse_injective heq

theorem occursIn_iff {p s : List Char} : occursIn p s = true ↔ p <:+: s := by
  induction s with
  | nil => rw [occursIn, List.isEmpty_iff, List.infix_nil]
  | cons c s ih =>
    rw [occursIn, Bool.or_eq_true, List.isPrefixOf_iff_prefix, ih, List.infix_cons_iff]

/-- An annotation marks generated code by its simple name. -/
theorem isGenerated_iff {desc : String} :
    isGenerated desc = true ↔
      ∃ name, SimpleName desc.toList name ∧ "Generated".toList <:+: name := by
  rw [isGenerated, occursIn_iff]
  constructor
  · exact fun h ↦ ⟨_, simpleName_spec desc, h⟩
  · rintro ⟨name, hname, h⟩
    rwa [(simpleName_spec desc).unique hname]

theorem isSynthetic_iff {m : MethodDecl} : isSynthetic m = true ↔
    m.access.contains Access.synthetic = true ∧ ¬ "lambda$".toList <+: m.name.toList := by
  rw [isSynthetic, Bool.and_eq_true, Bool.not_eq_true', ← List.isPrefixOf_iff_prefix,
    Bool.not_eq_true]

end Filter

/-! ## Dropped methods -/

namespace FilterFlags

variable {f : FilterFlags} {c : ClassDecl} {m : MethodDecl} {g : FlowGraph}

/-- The flags drop a method: one that the compiler made, but not the body of a lambda expression,
or one that an annotation of it or of its class marks as generated. -/
inductive Drops (f : FilterFlags) (c : ClassDecl) (m : MethodDecl) : Prop
  | synthetic : f.contains synthetic = true → m.access.contains Access.synthetic = true →
      ¬ "lambda$".toList <+: m.name.toList → Drops f c m
  | generated {descriptor : String} {name : List Char} : f.contains generated = true →
      descriptor ∈ c.annotations ++ m.annotations →
      Filter.SimpleName descriptor.toList name → "Generated".toList <:+: name → Drops f c m

theorem drops_iff : f.Drops c m ↔
    f.contains synthetic = true ∧ Filter.isSynthetic m = true ∨
      f.contains generated = true ∧
        (c.annotations ++ m.annotations).any Filter.isGenerated = true := by
  rw [Filter.isSynthetic_iff, List.any_eq_true]
  simp only [Filter.isGenerated_iff]
  constructor
  · rintro (⟨hflag, haccess, hname⟩ | ⟨hflag, hdescriptor, hname, hgenerated⟩)
    · exact Or.inl ⟨hflag, haccess, hname⟩
    · exact Or.inr ⟨hflag, _, hdescriptor, _, hname, hgenerated⟩
  · rintro (⟨hflag, haccess, hname⟩ | ⟨hflag, descriptor, hdescriptor, name, hname, hgenerated⟩)
    · exact .synthetic hflag haccess hname
    · exact .generated hflag hdescriptor hname hgenerated

instance : Decidable (f.Drops c m) := decidable_of_iff' _ drops_iff

theorem decisions_of_not_drops (h : ¬ f.Drops c m) (g : FlowGraph) :
    (Filter.chain f.filters).decisions m g c = [] := by
  rw [drops_iff, not_or] at h
  have hsynthetic : f.contains synthetic = true → Filter.synthetic.decisions m g c = [] :=
    fun hflag ↦ if_neg fun hm ↦ h.1 ⟨hflag, hm⟩
  have hgenerated : f.contains generated = true → Filter.generated.decisions m g c = [] :=
    fun hflag ↦ if_neg fun hm ↦ h.2 ⟨hflag, hm⟩
  simp only [Filter.chain, filters, List.flatMap_append, List.append_eq_nil_iff]
  refine ⟨?_, ?_⟩
  · split
    next hflag => simp [hsynthetic hflag]
    next => rfl
  · split
    next hflag => simp [hgenerated hflag]
    next => rfl

theorem ignoreAll_subset_of_drops (h : f.Drops c m) (g : FlowGraph) :
    Filter.ignoreAll g ⊆ (Filter.chain f.filters).decisions m g c := by
  simp only [Filter.chain, filters, List.flatMap_append]
  rcases drops_iff.mp h with ⟨hflag, hm⟩ | ⟨hflag, hm⟩
  · have hall : Filter.synthetic.decisions m g c = Filter.ignoreAll g := if_pos hm
    refine List.subset_append_of_subset_left _ ?_
    simp [hflag, hall]
  · have hall : Filter.generated.decisions m g c = Filter.ignoreAll g := if_pos hm
    refine List.subset_append_of_subset_right _ ?_
    simp [hflag, hall]

end FilterFlags

/-! ## Skipped code -/

namespace Selection

variable {g : FlowGraph} {s : Selection} {ds : List Decision}

/-- What is to be skipped stays so, whatever else is decided. -/
theorem ignored_subset_apply (g : FlowGraph) (s : Selection) (d : Decision) :
    s.ignored ⊆ (apply g s d).ignored := by
  cases d with
  | ignore first last =>
    rw [apply]
    split
    · exact List.subset_cons_self _ _
    · exact List.Subset.refl _
  | merge a b =>
    rw [apply]
    split
    · rw [merge]
      split <;> exact List.Subset.refl _
    · exact List.Subset.refl _
  | retarget source targets =>
    rw [apply]
    split <;> exact List.Subset.refl _

theorem ignored_subset_foldl (ds : List Decision) (s : Selection) :
    s.ignored ⊆ (ds.foldl (apply g) s).ignored := by
  induction ds generalizing s with
  | nil => exact List.Subset.refl _
  | cons d ds ih => exact List.Subset.trans (ignored_subset_apply g s d) (ih _)

theorem skips_ofDecisions {first last : Handle} {a b id : NodeId}
    (hmem : .ignore first last ∈ ds) (hfirst : g.id? first = some a) (hlast : g.id? last = some b)
    (ha : a ≤ id) (hb : id ≤ b) : (ofDecisions g ds).skips id = true := by
  obtain ⟨before, after, rfl⟩ := List.append_of_mem hmem
  rw [ofDecisions, List.foldl_append, List.foldl_cons]
  refine List.any_eq_true.mpr ⟨(a, b), ignored_subset_foldl after _ ?_, ?_⟩
  · simp [apply, hfirst, hlast, ignore]
  · simp [ha, hb]

theorem reported_eq_nil (h : ∀ id, id < g.size → s.skips id = true) : s.reported g = [] := by
  rw [reported, List.filterMap_eq_nil_iff]
  rintro ⟨n, id⟩ hn
  have hid : id < g.size := (Array.getElem?_eq_some_iff.mp
    (Array.getElem?_toList ▸ List.mk_mem_zipIdx_iff_getElem?.mp hn)).1
  simp [h id hid]

/-- Without a decision, every instruction is reported as it stands. -/
theorem reported_empty (g : FlowGraph) : ({} : Selection).reported g = g.nodes.toList := by
  have hrevised : ({} : Selection).revised g = ∅ := rfl
  rw [reported, hrevised]
  simp [skips]

end Selection

/-- The code of a method from its first to its last instruction is all of it. -/
theorem FlowGraph.skips_ignoreAll {probes : Option (Array Bool)} {es : List Event} {g : FlowGraph}
    (h : FlowGraph.ofEvents probes es = .ok g) {nodes : Array Node}
    (hnodes : nodes.size = g.nodes.size) {ds : List Decision}
    (hds : Filter.ignoreAll { g with nodes } ⊆ ds) {id : NodeId} (hid : id < nodes.size) :
    (Selection.ofDecisions { g with nodes } ds).skips id = true := by
  have hcount : nodes.size = (Stream.handles es).length := by
    rw [hnodes, size_ofEvents h, Stream.count_cursor]
  have hhandle : ∀ i, g.handles[i]? = (Stream.handles es)[i]? := fun i ↦ by
    rw [← handles_ofEvents h, Array.getElem?_toList]
  have hget : ∀ i, i < nodes.size → ∃ handle, (Stream.handles es)[i]? = some handle :=
    fun i hi ↦ ⟨_, List.getElem?_eq_getElem (hcount ▸ hi)⟩
  obtain ⟨first, hfirst⟩ := hget 0 (Nat.zero_lt_of_lt hid)
  obtain ⟨last, hlast⟩ := hget (nodes.size - 1) (Nat.sub_one_lt_of_lt hid)
  have hsize : g.handles.size = nodes.size := by
    rw [hcount, ← handles_ofEvents h, Array.length_toList]
  have hall : Filter.ignoreAll { g with nodes } = [.ignore first last] := by
    rw [Filter.ignoreAll]
    simp only [Array.back?, hhandle, hsize, hfirst, hlast]
  refine Selection.skips_ofDecisions (hds (hall ▸ List.mem_singleton_self _))
    ((id?_ofEvents h).mpr hfirst) ((id?_ofEvents h).mpr hlast) (Nat.zero_le id) ?_
  exact Nat.le_sub_one_of_lt hid

end ProbeCoverage
