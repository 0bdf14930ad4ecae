import ProbeCoverage.Event
import ProbeCoverage.Flags

/-!
# Declarations of classes and methods
-/

namespace ProbeCoverage

def accessTable : FlagTable where
  title := "AccessFlags"
  names := [
    ("PUBLIC", 0x0001), ("PRIVATE", 0x0002), ("PROTECTED", 0x0004), ("STATIC", 0x0008),
    ("FINAL", 0x0010), ("SYNCHRONIZED", 0x0020), ("BRIDGE", 0x0040), ("VARARGS", 0x0080),
    ("NATIVE", 0x0100), ("ABSTRACT", 0x0400), ("STRICT", 0x0800), ("SYNTHETIC", 0x1000)]

abbrev Access := Flags accessTable

namespace Access

def native : Access := ⟨0x0100⟩

def abstract : Access := ⟨0x0400⟩

def synthetic : Access := ⟨0x1000⟩

end Access

structure MethodDecl where
  access : Access
  name : String
  desc : String
  signature : Option String := none
  exceptions : List String := []
  annotations : List String := []
deriving DecidableEq

namespace MethodDecl

/-- The text under which the runs of a method are matched: its access bits, name, descriptor,
generic signature and exceptions, one after the other. -/
def matchKey (m : MethodDecl) : String :=
  toString m.access.bits.toNat ++ m.name ++ m.desc ++ m.signature.getD "null" ++
    String.join m.exceptions

def hasNoCode (m : MethodDecl) : Bool := m.access.intersects (Access.abstract.union Access.native)

end MethodDecl

structure ClassDecl where
  name : String
  signature : Option String := none
  superName : Option String := none
  interfaces : List String := []
  annotations : List String := []
  attributes : List String := []
  sourceFile : Option String := none
  sourceDebug : Option String := none
deriving DecidableEq

structure Method where
  decl : MethodDecl
  events : List Event
deriving DecidableEq

end ProbeCoverage
