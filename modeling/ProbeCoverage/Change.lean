/-!
# Changed lines

Ranges of source lines that differ between two versions of a file, each with its kind.
-/

namespace ProbeCoverage

inductive ChangeKind
  | insert
  | delete
  | replace
  | empty
deriving DecidableEq

namespace ChangeKind

def text : ChangeKind → String
  | insert => "INSERT"
  | delete => "DELETE"
  | replace => "REPLACE"
  | empty => "EMPTY"

/-- The name of the kind in mixed case. -/
def detail : ChangeKind → String
  | insert => "Insert"
  | delete => "Delete"
  | replace => "Replace"
  | empty => "Empty"

/-- Reads the text of a kind, in exactly that spelling. -/
def ofText? (s : String) : Option ChangeKind :=
  [insert, delete, replace, empty].find? (·.text = s)

/-- What is said of a text that names no kind. -/
def unknownMessage : String := "Matching variant not found"

end ChangeKind

structure ChangeRange where
  kind : ChangeKind
  start : Nat
  stop : Nat
deriving DecidableEq

def ChangeRange.contains (r : ChangeRange) (line : Nat) : Bool := r.start ≤ line && line ≤ r.stop

/-- The kind of the first range that holds a line. -/
def kindAt (ranges : List ChangeRange) (line : Nat) : Option ChangeKind :=
  (ranges.find? (·.contains line)).map (·.kind)

end ProbeCoverage
