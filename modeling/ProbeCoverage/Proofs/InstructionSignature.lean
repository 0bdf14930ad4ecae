import ProbeCoverage.Proofs.Imprint
import ProbeCoverage.Proofs.MatchKey

/-!
# What a signature tells about its instruction

A signature gives the position of an instruction, then its opcode and its operands, with a bar in
front of each operand. The position can always be read off. Of the rest, a signature tells the
pieces between the bars, but not which bars stand between two texts and which ones within a text.
So it identifies the instruction as long as no opcode and no operand has a bar of its own.
-/

namespace ProbeCoverage

section Joining

variable {α : Type} (x : α)

theorem intercalate_cons_eq_flatMap (l : List α) (ls : List (List α)) :
    [x].intercalate (l :: ls) = l ++ ls.flatMap (x :: ·) := by
  induction ls generalizing l with
  | nil => simp
  | cons l' ls ih =>
    rw [List.intercalate_cons_cons, ih, List.flatMap_cons]
    simp

/-- Texts that are joined by a character fall into the pieces of each. -/
theorem splitOn_intercalate_eq_flatMap [DecidableEq α] (l : List α) (ls : List (List α)) :
    ([x].intercalate (l :: ls)).splitOn x = (l :: ls).flatMap (List.splitOn x) := by
  induction ls generalizing l with
  | nil => simp
  | cons l' ls ih =>
    rw [List.intercalate_cons_cons, List.append_assoc, List.singleton_append,
      List.splitOn_append_cons_self, ih]
    rfl

end Joining

/-- An instruction, as its signature describes it. -/
structure Operation where
  ordinal : Nat
  opcode : String
  operands : List String
deriving DecidableEq

namespace Operation

def signature (o : Operation) : String := operationSignature o.ordinal o.opcode o.operands

def texts (o : Operation) : List (List Char) := (o.opcode :: o.operands).map String.toList

/-- The opcode and the operands, each of them cut at its bars. -/
def pieces (o : Operation) : List (List Char) := o.texts.flatMap (List.splitOn '|')

/-- Neither the opcode nor an operand has a bar. -/
def Plain (o : Operation) : Prop := ∀ t ∈ o.texts, '|' ∉ t

instance (o : Operation) : Decidable o.Plain :=
  inferInstanceAs (Decidable (∀ t ∈ o.texts, '|' ∉ t))

variable {a b : Operation}

theorem toList_signature (o : Operation) : o.signature.toList =
    (toString o.ordinal).toList ++ ':' :: ['|'].intercalate o.texts := by
  rw [texts, List.map_cons, intercalate_cons_eq_flatMap]
  simp [signature, operationSignature, String.toList_join, List.flatMap_map]

theorem splitOn_intercalate_texts (o : Operation) :
    (['|'].intercalate o.texts).splitOn '|' = o.pieces :=
  splitOn_intercalate_eq_flatMap '|' o.opcode.toList (o.operands.map String.toList)

theorem intercalate_pieces (o : Operation) :
    ['|'].intercalate o.pieces = ['|'].intercalate o.texts := by
  rw [← splitOn_intercalate_texts, List.intercalate_splitOn]

/-- The digits of a position end at the first colon; the pieces between bars are what is left. -/
theorem eq_of_signature_eq (h : a.signature = b.signature) :
    a.ordinal = b.ordinal ∧ a.pieces = b.pieces := by
  replace h := congrArg String.toList h
  rw [toList_signature, toList_signature] at h
  obtain ⟨hordinal, htexts⟩ := append_inj_of_head (p := fun c ↦ c.isDigit = true)
    (fun _ ↦ isDigit_of_mem_toString) (fun _ ↦ isDigit_of_mem_toString) (by simp) (by simp) h
  have hrepr : Nat.repr a.ordinal = Nat.repr b.ordinal := String.toList_inj.mp hordinal
  refine ⟨Nat.repr_injective hrepr, ?_⟩
  rw [← splitOn_intercalate_texts, ← splitOn_intercalate_texts, (List.cons.inj htexts).2]

theorem signature_eq_of_pieces (hordinal : a.ordinal = b.ordinal) (hpieces : a.pieces = b.pieces) :
    a.signature = b.signature := by
  apply String.toList_inj.mp
  rw [toList_signature, toList_signature, ← intercalate_pieces a, ← intercalate_pieces b, hordinal,
    hpieces]

theorem Plain.pieces_eq (h : a.Plain) : a.pieces = a.texts := by
  have hsingle : ∀ t ∈ a.texts, List.splitOn '|' t = [t] := fun t ht ↦
    List.splitOn_eq_singleton (h t ht)
  rw [pieces, List.flatMap_congr hsingle, List.flatMap_singleton']

theorem Plain.eq_of_signature_eq (ha : a.Plain) (hb : b.Plain) (h : a.signature = b.signature) :
    a = b := by
  obtain ⟨hordinal, hpieces⟩ := Operation.eq_of_signature_eq h
  rw [ha.pieces_eq, hb.pieces_eq] at hpieces
  have htexts : a.opcode :: a.operands = b.opcode :: b.operands :=
    List.map_injective_iff.mpr (fun _ _ ↦ String.toList_inj.mp) hpieces
  obtain ⟨hopcode, hoperands⟩ := List.cons.inj htexts
  cases a
  cases b
  cases hordinal
  cases hopcode
  cases hoperands
  rfl

/-- Signatures are equal exactly if the positions are, and the pieces between bars. Where there are
no bars, only one instruction has the signature, and no other is found under it in an imprint. -/
theorem signature_eq_iff (a b : Operation) :
    (a.signature = b.signature ↔ a.ordinal = b.ordinal ∧ a.pieces = b.pieces) ∧
    (a.Plain → b.Plain → (a.signature = b.signature ↔ a = b) ∧
      ∀ (g : FlowGraph) (m : Imprint) (n : Node), g.imprint? = some m →
        m.get? a.signature = some n → n.signature = some b.signature → a = b) := by
  refine ⟨⟨eq_of_signature_eq, fun h ↦ signature_eq_of_pieces h.1 h.2⟩, fun ha hb ↦
    ⟨⟨ha.eq_of_signature_eq hb, fun h ↦ h ▸ rfl⟩, fun g m n hm hget hsignature ↦ ?_⟩⟩
  have hown := (Imprint.mem_nodes_of_get? hm hget).2
  exact ha.eq_of_signature_eq hb (Option.some.inj (hown.symm.trans hsignature))

/-- Calls of different methods have different signatures. -/
theorem signature_eq_iff_calls :
    (⟨3, "INVOKEVIRTUAL", ["java/io/PrintStream", "print"]⟩ : Operation).signature ≠
      (⟨3, "INVOKEVIRTUAL", ["java/io/PrintStream", "println"]⟩ : Operation).signature := by
  intro h
  have hsame := (((signature_eq_iff _ _).2 (by decide) (by decide)).1).mp h
  exact absurd hsame (by decide)

/-- A method of this instruction alone, which has a probe. -/
def alone (o : Operation) : List Event :=
  [.instruction ⟨0⟩ (some o.signature), .probe 0 0, .endMethod]

/-- A bar within an operand or within the opcode reads like one in front of an operand. Different
instructions then have the same signature, and one is merged with a run of the other. -/
theorem signature_ambiguous :
    (⟨0, "LDC", ["a|b"]⟩ : Operation).signature = (⟨0, "LDC", ["a", "b"]⟩ : Operation).signature ∧
    (⟨0, "LDC|a", []⟩ : Operation).signature = (⟨0, "LDC", ["a"]⟩ : Operation).signature ∧
    (do
      let g ← FlowGraph.ofEvents (some #[false]) (alone ⟨0, "LDC|a", []⟩)
      let g' ← FlowGraph.ofEvents (some #[true]) (alone ⟨0, "LDC", ["a"]⟩)
      let u := MethodRun.merge "A" "m" g'.imprint? (some #[true])
      return (u.answer ⟨g, some #[false]⟩, (u.final ⟨g, some #[false]⟩).graph.countCovered)) =
        .ok (.ok .merged, 1) := by
  decide +kernel

end Operation

end ProbeCoverage
