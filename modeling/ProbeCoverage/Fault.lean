import ProbeCoverage.Event

/-!
# Faults

Every way in which an operation can fail, and the message for each. All but `overflow` tell of
input that does not fit; `overflow` ends a computation whose exact result is not representable.
-/

namespace ProbeCoverage

/-- Position of an instruction in its method. -/
abbrev NodeId := Nat

namespace NodeId

/-- The short form, as in `i4`. -/
def text (id : NodeId) : String := "i" ++ toString id

/-- The form that shows the type, as in `InsnId(4)`. -/
def detail (id : NodeId) : String := "InsnId(" ++ toString id ++ ")"

end NodeId

inductive Fault
  | afterEnd (event : Event)
  | unterminated (count : Nat)
  | noCurrentInstruction
  | duplicateInstruction (handle : Handle)
  | unresolvedLabel (label : Label)
  | probeOutOfBounds (probe length : Nat)
  | branchOutOfRange (handle : Handle) (branch : Nat)
  | unknownInstruction (id : NodeId)
  | probeSpanMismatch (className method : String) (current previous : Nat)
  | overflow
deriving DecidableEq

namespace Fault

def message : Fault → String
  | afterEnd event => "Event " ++ event.text ++ " after end of method"
  | unterminated count => "Event stream of " ++ toString count ++ " events is not terminated"
  | noCurrentInstruction => "Jump or probe declared without a current instruction"
  | duplicateInstruction handle => "Instruction " ++ handle.text ++ " has already been added"
  | unresolvedLabel label => "Jump target " ++ label.text ++ " does not mark any instruction"
  | probeOutOfBounds probe length =>
    "Probe " ++ toString probe ++ " is out of bounds for a probe array of length " ++
      toString length
  | branchOutOfRange handle branch =>
    "Branch " ++ toString branch ++ " of " ++ handle.text ++ " exceeds the maximum branch index"
  | unknownInstruction id => "Instruction " ++ id.text ++ " is not part of this graph"
  | probeSpanMismatch className method current previous =>
    "Probe span mismatch in " ++ className ++ "." ++ method ++ ": current run spans " ++
      toString current ++ " probes, previous run spans " ++ toString previous
  | overflow => "attempt to add with overflow"

end Fault

theorem exists_eq_ok {α : Type} {x : Except Fault α} (h : x.isOk = true) : ∃ a, x = .ok a := by
  cases x with
  | ok a => exact ⟨a, rfl⟩
  | error e => cases h

theorem bind_eq_ok_iff {α β : Type} {x : Except Fault α} {f : α → Except Fault β} {b : β} :
    x >>= f = .ok b ↔ ∃ a, x = .ok a ∧ f a = .ok b := by
  constructor
  · intro h
    cases x with
    | error e => cases h
    | ok a => exact ⟨a, rfl, h⟩
  · rintro ⟨a, rfl, h⟩
    exact h

theorem bind_eq_error_iff {α β : Type} {x : Except Fault α} {f : α → Except Fault β} {e : Fault} :
    x >>= f = .error e ↔ x = .error e ∨ ∃ a, x = .ok a ∧ f a = .error e := by
  cases x with
  | error f =>
    constructor
    · intro h
      cases h
      exact Or.inl rfl
    · rintro (h | ⟨a, ha, -⟩)
      · cases h
        rfl
      · cases ha
  | ok a =>
    constructor
    · exact fun h ↦ Or.inr ⟨a, rfl, h⟩
    · rintro (h | ⟨b, hb, h⟩)
      · cases h
      · cases hb
        exact h

/-- The sum of two counts, if it stays below `bound`. -/
def addBelow (bound a b : Nat) : Except Fault Nat :=
  if a + b < bound then .ok (a + b) else .error .overflow

/-- Counts stay below this bound. -/
def countBound : Nat := UInt32.size

/-- Probe ids and the lengths of probe intervals stay below this bound. -/
def probeBound : Nat := UInt64.size

end ProbeCoverage
