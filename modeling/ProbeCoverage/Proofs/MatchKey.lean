import Std.Data.String.ToNat
import ProbeCoverage.Proofs.ClassAnalysis

/-!
# What a match key tells about its method

A match key strings the parts of a declaration together, without marks between them. Where the parts
show their own ends, as they do in class files, the key can be taken apart again: all parts can be
read off, of the exceptions only their concatenation. Declarations of other forms may share a key.
-/

namespace ProbeCoverage

section Splitting

variable {α : Type} {p : α → Prop} {a a' b b' : List α}

theorem eq_nil_of_append {k : List α} (hk : ∀ x ∈ k, p x) (hhead : ∀ x ∈ (k ++ b).head?, ¬ p x) :
    k = [] := by
  cases k with
  | nil => rfl
  | cons x k => exact absurd (hk x List.mem_cons_self) (hhead x rfl)

/-- Two texts that begin alike as long as their characters have some property. -/
theorem append_inj_of_head (ha : ∀ x ∈ a, p x) (ha' : ∀ x ∈ a', p x) (hb : ∀ x ∈ b.head?, ¬ p x)
    (hb' : ∀ x ∈ b'.head?, ¬ p x) (h : a ++ b = a' ++ b') : a = a' ∧ b = b' := by
  rcases List.append_eq_append_iff.mp h with ⟨k, rfl, rfl⟩ | ⟨k, rfl, rfl⟩
  · have hk : k = [] := eq_nil_of_append (fun x hx ↦ ha' x (List.mem_append_right a hx)) hb
    simp [hk]
  · have hk : k = [] := eq_nil_of_append (fun x hx ↦ ha x (List.mem_append_right a' hx)) hb'
    simp [hk]

end Splitting

theorem isDigit_of_mem_toString {n : Nat} {c : Char} (h : c ∈ (toString n).toList) :
    c.isDigit = true := by
  have hdigits : (toString n).toList = Nat.toDigits 10 n := String.toList_ofList
  rw [hdigits] at h
  exact Nat.isDigit_of_mem_toDigits (by decide) (by decide) h

/-! ## Types -/

/-- The text of a type in a descriptor: a letter, the name of a class up to `;`, or an array. -/
inductive TypeText : List Char → Prop
  | letter {c : Char} : c ∉ ['L', '[', ')', ';'] → TypeText [c]
  | object {name : List Char} : ';' ∉ name → TypeText ('L' :: (name ++ [';']))
  | array {t : List Char} : TypeText t → TypeText ('[' :: t)

/-- No type begins with another one. -/
theorem TypeText.append_inj {t t' s s' : List Char} (h : TypeText t) (h' : TypeText t')
    (heq : t ++ s = t' ++ s') : t = t' ∧ s = s' := by
  induction h generalizing t' with
  | letter hc =>
    cases h' with
    | letter _ => simpa using heq
    | object _ | array _ =>
      obtain ⟨rfl, -⟩ := List.cons.inj heq
      simp at hc
  | @object name hname =>
    cases h' with
    | letter hc =>
      obtain ⟨rfl, -⟩ := List.cons.inj heq
      simp at hc
    | array _ => simp at heq
    | @object name' hname' =>
      simp only [List.cons_append, List.append_assoc, List.cons.injEq, true_and] at heq
      obtain ⟨rfl, hs⟩ := append_inj_of_head (p := (· ≠ ';')) (fun x hx hxs ↦ hname (hxs ▸ hx))
        (fun x hx hxs ↦ hname' (hxs ▸ hx)) (by simp) (by simp) heq
      exact ⟨rfl, (List.cons.inj hs).2⟩
  | array _ ih =>
    cases h' with
    | letter hc =>
      obtain ⟨rfl, -⟩ := List.cons.inj heq
      simp at hc
    | object _ => simp at heq
    | array ht' =>
      obtain ⟨rfl, hs⟩ := ih ht' (List.cons.inj heq).2
      exact ⟨rfl, hs⟩

/-- A descriptor: the types of the parameters in parentheses, then the type of the result. -/
def DescriptorText (d : List Char) : Prop :=
  ∃ params result, d = '(' :: (params ++ ')' :: result) ∧ ')' ∉ params ∧ TypeText result

theorem DescriptorText.append_inj {d d' s s' : List Char} (h : DescriptorText d)
    (h' : DescriptorText d') (heq : d ++ s = d' ++ s') : d = d' ∧ s = s' := by
  obtain ⟨params, result, rfl, hparams, hresult⟩ := h
  obtain ⟨params', result', rfl, hparams', hresult'⟩ := h'
  simp only [List.cons_append, List.append_assoc, List.cons.injEq, true_and] at heq
  obtain ⟨rfl, hs⟩ := append_inj_of_head (p := (· ≠ ')')) (fun x hx hxp ↦ hparams (hxp ▸ hx))
    (fun x hx hxp ↦ hparams' (hxp ▸ hx)) (by simp) (by simp) heq
  obtain ⟨rfl, rfl⟩ := hresult.append_inj hresult' (List.cons.inj hs).2
  exact ⟨rfl, rfl⟩

/-- A generic signature begins with its type parameters or its parameters, and ends with `;` or
with a type without a name. -/
structure SignatureText (s : List Char) : Prop where
  head : s.head? = some '<' ∨ s.head? = some '('
  ends : (∃ u, s = u ++ [';']) ∨
    ∃ u t, s = u ++ ')' :: t ∧ TypeText t ∧ ')' ∉ t ∧ ';' ∉ t

/-- What stands after the last closing parenthesis. -/
theorem eq_of_last_paren {u u' t t' : List Char} (ht : ')' ∉ t) (ht' : ')' ∉ t')
    (h : u ++ ')' :: t = u' ++ ')' :: t') : t = t' := by
  have hrev := congrArg List.reverse h
  simp only [List.reverse_append, List.reverse_cons, List.append_assoc] at hrev
  refine List.reverse_injective (append_inj_of_head (p := (· ≠ ')')) ?_ ?_ ?_ ?_ hrev).1
  · intro x hx hxp
    exact ht (hxp ▸ List.mem_reverse.mp hx)
  · intro x hx hxp
    exact ht' (hxp ▸ List.mem_reverse.mp hx)
  · simp
  · simp

namespace SignatureText

/-- A signature that goes on without `;` and without a parenthesis does not go on at all. -/
theorem eq_nil_of_append {s k : List Char} (h : SignatureText s) (h' : SignatureText (s ++ k))
    (hparen : ')' ∉ k) (hsemi : ';' ∉ k) : k = [] := by
  rcases h'.ends with ⟨u, hu⟩ | ⟨u, t, hu, ht, hparent, hsemit⟩
  · rcases List.eq_nil_or_concat k with hk | ⟨k', c, rfl⟩
    · exact hk
    · rw [List.concat_eq_append, ← List.append_assoc] at hu
      have hc : c = ';' := (List.cons.inj (List.append_inj' hu rfl).2).1
      exact absurd (by simp [hc]) hsemi
  · -- the last parenthesis stands in `k`, or the type after it reaches into `k`
    rcases List.append_eq_append_iff.mp hu with ⟨v, -, rfl⟩ | ⟨v, rfl, hv⟩
    · exact absurd (by simp) hparen
    · cases v with
      | nil =>
        rw [List.nil_append] at hv
        exact absurd (hv ▸ List.mem_cons_self) hparen
      | cons c v =>
        rw [List.cons_append] at hv
        obtain ⟨rfl, rfl⟩ := List.cons.inj hv
        rw [List.mem_append, not_or] at hparent hsemit
        rcases h.ends with ⟨u', hu'⟩ | ⟨u', t', hu', ht', hparent', -⟩
        · have hlast : (u ++ ')' :: v).getLast? = some ';' := by
            rw [hu', List.getLast?_append]
            rfl
          rw [List.getLast?_append_cons] at hlast
          have hmem := List.mem_of_getLast? hlast
          exact absurd hmem (by simp [hsemit.1])
        · obtain rfl := eq_of_last_paren hparent.1 hparent' hu'
          have hsplit : v ++ k = (v ++ k) ++ [] := (List.append_nil _).symm
          have hself := (ht'.append_inj ht hsplit).1
          exact List.self_eq_append_right.mp hself

theorem append_inj {s s' e e' : List Char} (h : SignatureText s) (h' : SignatureText s')
    (he : ')' ∉ e ∧ ';' ∉ e) (he' : ')' ∉ e' ∧ ';' ∉ e') (heq : s ++ e = s' ++ e') :
    s = s' ∧ e = e' := by
  rcases List.append_eq_append_iff.mp heq with ⟨k, rfl, rfl⟩ | ⟨k, rfl, rfl⟩
  · simp only [List.mem_append, not_or] at he
    have hk : k = [] := h.eq_nil_of_append h' he.1.1 he.2.1
    simp [hk]
  · simp only [List.mem_append, not_or] at he'
    have hk : k = [] := h'.eq_nil_of_append h he'.1.1 he'.2.1
    simp [hk]

end SignatureText

/-! ## Declarations -/

namespace MethodDecl

/-- Each part of the declaration shows where it ends. -/
structure Delimited (m : MethodDecl) : Prop where
  name_head : ∀ c ∈ m.name.toList.head?, c.isDigit = false
  name : '(' ∉ m.name.toList
  desc : DescriptorText m.desc.toList
  signature : ∀ s ∈ m.signature, SignatureText s.toList
  exceptions : ∀ e ∈ m.exceptions, ')' ∉ e.toList ∧ ';' ∉ e.toList

/-- The declarations agree in what a key is made of; of the exceptions, only their concatenation
counts. -/
structure Agrees (m n : MethodDecl) : Prop where
  access : m.access = n.access
  name : m.name = n.name
  desc : m.desc = n.desc
  signature : m.signature = n.signature
  exceptions : String.join m.exceptions = String.join n.exceptions

variable {m n : MethodDecl}

theorem Agrees.matchKey_eq (h : Agrees m n) : m.matchKey = n.matchKey := by
  rw [matchKey, matchKey, h.access, h.name, h.desc, h.signature, h.exceptions]

def digits (m : MethodDecl) : List Char := (toString m.access.bits.toNat).toList

theorem toList_matchKey (m : MethodDecl) : m.matchKey.toList =
    m.digits ++ (m.name.toList ++ (m.desc.toList ++
      ((m.signature.getD "null").toList ++ (String.join m.exceptions).toList))) := by
  simp [matchKey, digits, String.toList_append]

theorem access_eq_of_digits (h : m.digits = n.digits) : m.access = n.access := by
  have hrepr : Nat.repr m.access.bits.toNat = Nat.repr n.access.bits.toNat := String.toList_inj.mp h
  have hbits := UInt32.toNat_inj.mp (Nat.repr_injective hrepr)
  exact congrArg Flags.mk hbits

/-- The text of a missing signature begins no signature. -/
theorem signature_append_ne_null {s : List Char} (h : SignatureText s) (e e' : List Char) :
    s ++ e ≠ "null".toList ++ e' := by
  intro heq
  have hhead := congrArg List.head? heq
  rw [List.head?_append] at hhead
  rcases h.head with hs | hs
  · simp [hs] at hhead
  · simp [hs] at hhead

theorem Delimited.signature_append (hm : Delimited m) (hn : Delimited n) {e e' : List Char}
    (he : ')' ∉ e ∧ ';' ∉ e) (he' : ')' ∉ e' ∧ ';' ∉ e')
    (h : (m.signature.getD "null").toList ++ e = (n.signature.getD "null").toList ++ e') :
    m.signature = n.signature ∧ e = e' := by
  cases hms : m.signature with
  | none =>
    cases hns : n.signature with
    | none =>
      rw [hms, hns] at h
      exact ⟨rfl, List.append_cancel_left h⟩
    | some t =>
      rw [hms, hns] at h
      exact absurd h.symm (signature_append_ne_null (hn.signature t hns) e' e)
  | some s =>
    cases hns : n.signature with
    | none =>
      rw [hms, hns] at h
      exact absurd h (signature_append_ne_null (hm.signature s hms) e e')
    | some t =>
      rw [hms, hns] at h
      obtain ⟨hst, hee⟩ := (hm.signature s hms).append_inj (hn.signature t hns) he he' h
      exact ⟨congrArg some (String.toList_inj.mp hst), hee⟩

theorem Delimited.join_exceptions (h : Delimited m) :
    ')' ∉ (String.join m.exceptions).toList ∧ ';' ∉ (String.join m.exceptions).toList := by
  simp only [String.toList_join, List.mem_flatMap, not_exists, not_and]
  exact ⟨fun e he ↦ (h.exceptions e he).1, fun e he ↦ (h.exceptions e he).2⟩

theorem Delimited.head_name_append (h : Delimited m) (rest : List Char) :
    ∀ c ∈ (m.name.toList ++ (m.desc.toList ++ rest)).head?, ¬ c.isDigit = true := by
  intro c hc
  obtain ⟨params, result, hdesc, -⟩ := h.desc
  cases hname : m.name.toList with
  | nil =>
    rw [hname, hdesc] at hc
    obtain rfl : '(' = c := by simpa using hc
    decide
  | cons d name =>
    rw [hname] at hc
    obtain rfl : d = c := by simpa using hc
    have hd := h.name_head d (by rw [hname]; rfl)
    simp [hd]

theorem Delimited.head_desc_append (h : Delimited m) (rest : List Char) :
    ∀ c ∈ (m.desc.toList ++ rest).head?, ¬ c ≠ '(' := by
  obtain ⟨params, result, hdesc, -⟩ := h.desc
  simp [hdesc]

/-- A key of delimited parts is taken apart from the left to the right. -/
theorem Delimited.agrees (hm : Delimited m) (hn : Delimited n) (h : m.matchKey = n.matchKey) :
    Agrees m n := by
  replace h := congrArg String.toList h
  rw [toList_matchKey, toList_matchKey] at h
  obtain ⟨hdigits, h⟩ := append_inj_of_head (p := fun c ↦ c.isDigit = true)
    (fun _ ↦ isDigit_of_mem_toString) (fun _ ↦ isDigit_of_mem_toString) (hm.head_name_append _)
    (hn.head_name_append _) h
  obtain ⟨hname, h⟩ := append_inj_of_head (p := (· ≠ '(')) (fun c hc hcp ↦ hm.name (hcp ▸ hc))
    (fun c hc hcp ↦ hn.name (hcp ▸ hc)) (hm.head_desc_append _) (hn.head_desc_append _) h
  obtain ⟨hdesc, h⟩ := hm.desc.append_inj hn.desc h
  obtain ⟨hsignature, h⟩ := hm.signature_append hn hm.join_exceptions hn.join_exceptions h
  exact ⟨access_eq_of_digits hdigits, String.toList_inj.mp hname, String.toList_inj.mp hdesc,
    hsignature, String.toList_inj.mp h⟩

end MethodDecl

/-! ## Snapshots -/

namespace Snapshot

/-- What a snapshot keeps of a method: nothing if there is no code or a signature is missing. -/
def imprintOf (probes : Option (Array Bool)) (m : Method) : Option Imprint :=
  if m.decl.hasNoCode then none
  else (FlowGraph.ofEvents probes m.events).toOption.bind FlowGraph.imprint?

theorem eq_of_captureMethod {s s' : Snapshot} {m : Method} (h : s.captureMethod m = .ok s') :
    s' = (imprintOf s.probes m).elim s (s.insert m.decl.matchKey) := by
  cases hcode : m.decl.hasNoCode with
  | true =>
    simp only [captureMethod, hcode, if_true] at h
    cases h
    simp [imprintOf, hcode]
  | false =>
    obtain ⟨g, hg, rfl⟩ := (captureMethod_eq_ok_iff hcode).mp h
    simp [imprintOf, hcode, hg, Except.toOption]

theorem size_insert {s : Snapshot} {key : String} (h : s.method? key = none) (i : Imprint) :
    (s.insert key i).size = s.size + 1 := by
  have hnot : ¬ key ∈ s.methods := by
    simpa [method?] using h
  simp [size, insert, Std.ExtTreeMap.size_insert, hnot]

/-- Methods with different keys are kept side by side. -/
theorem holds_of_capture {ms : List Method} {s s' : Snapshot}
    (h : ms.foldlM captureMethod s = .ok s') (hkeys : (ms.map (·.decl.matchKey)).Nodup)
    (hnew : ∀ m ∈ ms, s.method? m.decl.matchKey = none) :
    s'.size = s.size + (ms.filterMap (imprintOf s.probes)).length ∧
      ∀ key i, s'.method? key = some i ↔ s.method? key = some i ∨
        ∃ m ∈ ms, m.decl.matchKey = key ∧ imprintOf s.probes m = some i := by
  induction ms generalizing s with
  | nil =>
    cases h
    simp
  | cons m ms ih =>
    rw [List.foldlM_cons, bind_eq_ok_iff] at h
    obtain ⟨s₁, hm, hms⟩ := h
    rw [List.map_cons, List.nodup_cons] at hkeys
    have hs₁ := eq_of_captureMethod hm
    have hnone := hnew m List.mem_cons_self
    cases hi : imprintOf s.probes m with
    | none =>
      rw [hi, Option.elim_none] at hs₁
      subst hs₁
      obtain ⟨hsize, hget⟩ := ih hms hkeys.2 fun n hn ↦ hnew n (List.mem_cons_of_mem m hn)
      refine ⟨by rw [hsize, List.filterMap_cons_none hi], fun key i ↦ ?_⟩
      simp [hget, hi]
    | some j =>
      rw [hi, Option.elim_some] at hs₁
      subst hs₁
      obtain ⟨hsize, hget⟩ := ih hms hkeys.2 fun n hn ↦ by
        have hne : m.decl.matchKey ≠ n.decl.matchKey := fun heq ↦
          hkeys.1 (List.mem_map.mpr ⟨n, hn, heq.symm⟩)
        rw [method?_insert, if_neg hne]
        exact hnew n (List.mem_cons_of_mem m hn)
      refine ⟨?_, fun key i ↦ ?_⟩
      · rw [hsize, size_insert hnone, List.filterMap_cons_some hi, List.length_cons]
        exact Nat.add_right_comm _ _ _
      · have hprobes : (s.insert m.decl.matchKey j).probes = s.probes := rfl
        rw [hget, method?_insert, hprobes]
        split
        next heq =>
          subst heq
          simp [hnone, hi]
        next hne => simp [hne]

end Snapshot

namespace MethodDecl

/-- Declarations that agree have the same key. Delimited ones have it only if they agree; so a
snapshot of methods that are delimited and do not agree has an entry for each that is captured, and
under the key of a declaration there is the method that agrees with it, or none. -/
theorem agrees_of_matchKey_eq :
    (∀ m n : MethodDecl, Agrees m n → m.matchKey = n.matchKey) ∧
    (∀ m n : MethodDecl, Delimited m → Delimited n → m.matchKey = n.matchKey → Agrees m n) ∧
    ∀ (ms : List Method) (probes : Option (Array Bool)) (snapshot : Snapshot),
      (∀ m ∈ ms, Delimited m.decl) → ms.Pairwise (fun m n ↦ ¬ Agrees m.decl n.decl) →
      Snapshot.capture ms probes = .ok snapshot →
        snapshot.size = (ms.filterMap (Snapshot.imprintOf probes)).length ∧
        ∀ d, Delimited d → ∀ i, snapshot.method? d.matchKey = some i ↔
          ∃ m ∈ ms, Agrees m.decl d ∧ Snapshot.imprintOf probes m = some i := by
  refine ⟨fun m n ↦ Agrees.matchKey_eq, fun m n hm hn ↦ hm.agrees hn,
    fun ms probes snapshot hms hapart hcapture ↦ ?_⟩
  have hkeys : (ms.map (·.decl.matchKey)).Nodup := by
    rw [List.Nodup, List.pairwise_map]
    refine hapart.imp_of_mem fun {m n} hm hn hdiffer heq ↦ ?_
    exact hdiffer ((hms m hm).agrees (hms n hn) heq)
  obtain ⟨hsize, hget⟩ := Snapshot.holds_of_capture hcapture hkeys fun m _ ↦
    Std.ExtTreeMap.getElem?_empty
  have hzero : Snapshot.size { probes } = 0 := rfl
  refine ⟨by rw [hsize, hzero, Nat.zero_add], fun d hd i ↦ ?_⟩
  have hempty : Snapshot.method? { probes } d.matchKey = none := Std.ExtTreeMap.getElem?_empty
  rw [hget, hempty]
  simp only [reduceCtorEq, false_or]
  refine exists_congr fun m ↦ and_congr_right fun hm ↦ and_congr_left fun _ ↦ ?_
  exact ⟨(hms m hm).agrees hd, Agrees.matchKey_eq⟩

/-- A method with one instruction, which declares two exceptions, and one which declares none. -/
def throwing : Method where
  decl := { access := ⟨1⟩, name := "f", desc := "()V", exceptions := ["a/B", "c/D"] }
  events := [.instruction ⟨0⟩ (some "return"), .probe 0 0, .endMethod]

def plain : Method where
  decl := { access := ⟨1⟩, name := "f", desc := "(I)V", signature := some "<T:>(I)V" }
  events := [.instruction ⟨0⟩ (some "return"), .probe 1 0, .endMethod]

theorem delimited_throwing : Delimited throwing.decl where
  name_head := by
    intro c hc
    obtain rfl := Option.some.inj hc
    decide
  name := by decide
  desc := ⟨[], ['V'], rfl, by decide, .letter (by decide)⟩
  signature := by simp [throwing]
  exceptions := by decide

theorem delimited_plain : Delimited plain.decl where
  name_head := by
    intro c hc
    obtain rfl := Option.some.inj hc
    decide
  name := by decide
  desc := ⟨['I'], ['V'], rfl, by decide, .letter (by decide)⟩
  signature := by
    intro s hs
    obtain rfl := Option.some.inj hs
    exact ⟨Or.inl rfl, Or.inr ⟨"<T:>(I".toList, ['V'], rfl, .letter (by decide), by decide,
      by decide⟩⟩
  exceptions := by decide

theorem agrees_of_matchKey_eq_throwing :
    ∃ snapshot, Snapshot.capture [throwing, plain] (some #[true, false]) = .ok snapshot ∧
      snapshot.size = 2 ∧ ∀ i, snapshot.method? plain.decl.matchKey = some i ↔
        ∃ m ∈ [throwing, plain], Agrees m.decl plain.decl ∧
          Snapshot.imprintOf (some #[true, false]) m = some i := by
  obtain ⟨snapshot, hsnapshot⟩ : ∃ snapshot,
      Snapshot.capture [throwing, plain] (some #[true, false]) = .ok snapshot :=
    exists_eq_ok (by decide +kernel)
  have hdelimited : ∀ m ∈ [throwing, plain], Delimited m.decl := by
    simp [delimited_throwing, delimited_plain]
  have hapart : [throwing, plain].Pairwise fun m n ↦ ¬ Agrees m.decl n.decl := by
    rw [List.pairwise_pair]
    exact fun h ↦ absurd h.desc (by decide)
  obtain ⟨hsize, hget⟩ := agrees_of_matchKey_eq.2.2 _ _ snapshot hdelimited hapart hsnapshot
  refine ⟨snapshot, hsnapshot, hsize.trans ?_, hget plain.decl delimited_plain⟩
  decide +kernel

/-- Pairs of declarations that differ, one for each place between two parts. -/
def ambiguous : List (MethodDecl × MethodDecl) := [
  ({ access := ⟨1⟩, name := "1f", desc := "()V" }, { access := ⟨11⟩, name := "f", desc := "()V" }),
  ({ access := ⟨1⟩, name := "f", desc := "(()V" }, { access := ⟨1⟩, name := "f(", desc := "()V" }),
  ({ access := ⟨1⟩, name := "f", desc := "()Vnull" },
    { access := ⟨1⟩, name := "f", desc := "()V", exceptions := ["null"] }),
  ({ access := ⟨1⟩, name := "f", desc := "()V" },
    { access := ⟨1⟩, name := "f", desc := "()V", signature := some "null" }),
  ({ access := ⟨1⟩, name := "f", desc := "()V", signature := some "()V", exceptions := ["x"] },
    { access := ⟨1⟩, name := "f", desc := "()V", signature := some "()Vx" }),
  (throwing.decl, { throwing.decl with exceptions := ["a/Bc/D"] })]

/-- Without marks between its parts, a key does not tell such declarations apart: only one of two
methods is kept, and one is merged with a run of the other. -/
theorem matchKey_ambiguous :
    (∀ p ∈ ambiguous, p.1.matchKey = p.2.matchKey ∧
      (p.1.access, p.1.name, p.1.desc, p.1.signature, p.1.exceptions) ≠
        (p.2.access, p.2.name, p.2.desc, p.2.signature, p.2.exceptions)) ∧
    let other : Method := { throwing with decl := { throwing.decl with exceptions := ["a/Bc/D"] } }
    (Snapshot.capture [throwing, other] (some #[true])).map (·.size) = .ok 1 ∧
      (Snapshot.capture [throwing] (some #[true])).map (fun snapshot ↦
        (ClassRun.analyze other).answer
          (.start { name := "A" } (.chain []) (some snapshot) (some #[false]))) =
        .ok (.ok .merged) := by
  refine ⟨by decide +kernel, ?_, ?_⟩
  · decide +kernel
  · decide +kernel

end MethodDecl

end ProbeCoverage
