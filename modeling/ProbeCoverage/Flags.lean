/-!
# Flag words

A word of 32 bits, some of which have names. Bits without a name are kept.
-/

namespace ProbeCoverage

/-- The names of the bits of a flag word, and the name of the word as a whole. -/
structure FlagTable where
  title : String
  names : List (String × UInt32)

structure Flags (t : FlagTable) where
  bits : UInt32
deriving DecidableEq

namespace Flags

variable {t : FlagTable}

instance : EmptyCollection (Flags t) := ⟨⟨0⟩⟩

/-- All bits that have a name. -/
def known (t : FlagTable) : UInt32 := t.names.foldl (fun w (_, m) ↦ w ||| m) 0

def all : Flags t := ⟨known t⟩

def isEmpty (a : Flags t) : Bool := a.bits = 0

def contains (a b : Flags t) : Bool := a.bits &&& b.bits = b.bits

def intersects (a b : Flags t) : Bool := a.bits &&& b.bits ≠ 0

def isAll (a : Flags t) : Bool := a.contains all

def isKnown (a : Flags t) : Bool := a.bits &&& ~~~ known t = 0

def union (a b : Flags t) : Flags t := ⟨a.bits ||| b.bits⟩

def inter (a b : Flags t) : Flags t := ⟨a.bits &&& b.bits⟩

def diff (a b : Flags t) : Flags t := ⟨a.bits &&& ~~~ b.bits⟩

def symmDiff (a b : Flags t) : Flags t := ⟨a.bits ^^^ b.bits⟩

/-- Drops the bits that have no name. -/
def truncate (a : Flags t) : Flags t := ⟨a.bits &&& known t⟩

/-- The named bits that are not set. -/
def complement (a : Flags t) : Flags t := truncate ⟨~~~ a.bits⟩

/-- The names of the bits that are set, in the order of the table. -/
def names (a : Flags t) : List String :=
  (t.names.filter fun (_, m) ↦ a.bits &&& m = m).map (·.1)

/-- A word in hexadecimal digits, as in `0x8000`. -/
def hex (w : UInt32) : String := "0x" ++ String.ofList (Nat.toDigits 16 w.toNat)

/-- The names of the bits that are set and, if it is not zero, the remainder. -/
def parts (a : Flags t) : List String :=
  let rest := a.bits &&& ~~~ known t
  a.names ++ if rest = 0 then [] else [hex rest]

def detail (a : Flags t) : String :=
  let body := if a.isEmpty then hex 0 else String.intercalate " | " a.parts
  t.title ++ "(" ++ body ++ ")"

end Flags

end ProbeCoverage
