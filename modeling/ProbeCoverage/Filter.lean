import ProbeCoverage.Declaration
import ProbeCoverage.FlowGraph

/-!
# Filters

A filter looks at a method, its graph and its class, and decides what is not to be counted as it
stands. The built-in filters skip methods that the compiler or a generator made.
-/

namespace ProbeCoverage

/-- What a filter may ask for before the instructions of a method are counted. -/
inductive Decision
  /-- Skips the instructions between two, both included. -/
  | ignore (first last : Handle)
  /-- Counts two instructions as one. -/
  | merge (a b : Handle)
  /-- Gives an instruction one branch for each target, taken where the target is covered. -/
  | retarget (source : Handle) (targets : List Handle)
deriving DecidableEq

structure Filter where
  name : String
  decisions : MethodDecl → FlowGraph → ClassDecl → List Decision

namespace Filter

/-- Skips a whole method. -/
def ignoreAll (g : FlowGraph) : List Decision :=
  match g.handles[0]?, g.handles.back? with
  | some first, some last => [.ignore first last]
  | _, _ => []

/-- Whether the compiler made the method without the source asking for it. The bodies of lambda
expressions do not count. -/
def isSynthetic (m : MethodDecl) : Bool :=
  m.access.contains Access.synthetic && !("lambda$".toList.isPrefixOf m.name.toList)

def synthetic : Filter where
  name := "synthetic"
  decisions m g _ := if isSynthetic m then ignoreAll g else []

/-- The name of an annotation type: what follows the last `/` or `$`, without `;` at the end. -/
def simpleName (desc : String) : List Char :=
  let trimmed := desc.toList.reverse.dropWhile (· = ';')
  (trimmed.takeWhile fun c ↦ c ≠ '/' && c ≠ '$').reverse

/-- Whether `p` occurs in `s`. -/
def occursIn (p : List Char) : List Char → Bool
  | [] => p.isEmpty
  | c :: s => p.isPrefixOf (c :: s) || occursIn p s

/-- Whether an annotation marks generated code. -/
def isGenerated (desc : String) : Bool := occursIn "Generated".toList (simpleName desc)

def generated : Filter where
  name := "generated"
  decisions m g c := if (c.annotations ++ m.annotations).any isGenerated then ignoreAll g else []

def chain (fs : List Filter) : Filter where
  name := "chain"
  decisions m g c := fs.flatMap (·.decisions m g c)

end Filter

def filterTable : FlagTable where
  title := "FilterFlags"
  names := [("SYNTHETIC", 1), ("GENERATED", 2)]

abbrev FilterFlags := Flags filterTable

namespace FilterFlags

def synthetic : FilterFlags := ⟨1⟩

def generated : FilterFlags := ⟨2⟩

/-- The filters selected, in the order in which they run. -/
def filters (f : FilterFlags) : List Filter :=
  (if f.contains synthetic then [Filter.synthetic] else []) ++
    (if f.contains generated then [Filter.generated] else [])

end FilterFlags

end ProbeCoverage
