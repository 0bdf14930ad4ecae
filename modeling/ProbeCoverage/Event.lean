import ProbeCoverage.Text.Quoted
import Std.Data.ExtTreeMap

/-!
# Method events

A method body arrives as a stream of events in the order of its code: line numbers, labels,
instructions, and the jumps and probes of the instruction that came last.
-/

namespace ProbeCoverage

/-- Names an instruction; the stream chooses it. -/
structure Handle where
  num : Nat
deriving DecidableEq

namespace Handle

instance : Ord Handle := ⟨compareOn num⟩

instance : Std.TransOrd Handle := inferInstanceAs (Std.TransCmp (compareOn num))

instance : Std.LawfulEqOrd Handle where
  eq_of_compare {a b} h := by
    cases a
    cases b
    exact congrArg mk (Std.LawfulEqOrd.eq_of_compare h)

/-- The short form, as in `#7`. -/
def text (h : Handle) : String := "#" ++ toString h.num

/-- The form that shows the type, as in `InsnHandle(7)`. -/
def detail (h : Handle) : String := "InsnHandle(" ++ toString h.num ++ ")"

end Handle

/-- Names a place in the code; it marks the instruction that follows. -/
structure Label where
  num : Nat
deriving DecidableEq

namespace Label

instance : Ord Label := ⟨compareOn num⟩

instance : Std.TransOrd Label := inferInstanceAs (Std.TransCmp (compareOn num))

instance : Std.LawfulEqOrd Label where
  eq_of_compare {a b} h := by
    cases a
    cases b
    exact congrArg mk (Std.LawfulEqOrd.eq_of_compare h)

/-- The short form, as in `L3`. -/
def text (l : Label) : String := "L" ++ toString l.num

/-- The form that shows the type, as in `Label(3)`. -/
def detail (l : Label) : String := "Label(" ++ toString l.num ++ ")"

end Label

inductive Event
  /-- The instructions that follow belong to source line `number`. -/
  | line (number : Nat)
  /-- Marks the next instruction; without `successor` it is not reached by falling through. -/
  | label (label : Label) (successor : Bool)
  | instruction (handle : Handle) (signature : Option String)
  /-- The current instruction jumps to `target` through its branch `branch`. -/
  | jump (target : Label) (branch : Nat)
  /-- Probe `probe` records whether branch `branch` of the current instruction was taken. -/
  | probe (probe branch : Nat)
  /-- The next instruction does not follow the current one. -/
  | noSuccessor
  | endMethod
deriving DecidableEq

namespace Event

def signatureText : Option String → String
  | none => "None"
  | some s => "Some(" ++ Text.quote s ++ ")"

def fields (kind body : String) : String := kind ++ " \x7b " ++ body ++ " \x7d"

/-- The form in which an event appears in a message: its kind, then its fields with their names. -/
def text : Event → String
  | .line n => "LineNumber(" ++ toString n ++ ")"
  | .label l s =>
    fields "Label" ("label: " ++ l.detail ++ ", successor: " ++ if s then "true" else "false")
  | .instruction h s =>
    fields "Instruction" ("handle: " ++ h.detail ++ ", signature: " ++ signatureText s)
  | .jump l b => fields "Jump" ("target: " ++ l.detail ++ ", branch: " ++ toString b)
  | .probe p b => fields "Probe" ("probe: " ++ toString p ++ ", branch: " ++ toString b)
  | .noSuccessor => "NoSuccessor"
  | .endMethod => "EndMethod"

end Event

/-- The text that identifies an instruction within its method, from run to run: its position, its
opcode and its operands. -/
def operationSignature (ordinal : Nat) (opcode : String) (operands : List String) : String :=
  toString ordinal ++ ":" ++ opcode ++ String.join (operands.map ("|" ++ ·))

end ProbeCoverage
