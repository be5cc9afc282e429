import SolutionTree.Dependencies

/-!
An order in which targets can be built, each after all that it depends on.

The order is the one in which a depth-first search finishes targets, begun from each
target by name and following dependencies as they are declared. A target that
depends on itself is reported as the search discovers it. For any other cycle the
targets are taken in the opposite order: each should find all targets that depend on
it taken before, and the first one that is missing lies on a cycle.
-/

namespace SolutionTree

structure DependencyCycle where
  target : String
  deriving DecidableEq, Repr

def DependencyCycle.message (cycle : DependencyCycle) : String :=
  "dependency cycle through `" ++ cycle.target ++ "`"

/-- How far a depth-first search has come; the newest name stands first. -/
structure Search where
  discovered : List String := []
  finished : List String := []
  deriving DecidableEq, Repr

namespace Search

/-- Visits a name and then all that it leads to, at most `depth` steps away. -/
def visit (successors : String → List String) : (depth : Nat) → Search → String → Search
  | 0, search, _ => search
  | depth + 1, search, name =>
    if name ∈ search.discovered then search
    else
      let inner := (successors name).foldl (visit successors depth)
        { search with discovered := name :: search.discovered }
      { inner with finished := name :: inner.finished }

/-- Visits names one after another; no path without repeats is longer than there are
names. -/
def visitAll (successors : String → List String) (names : List String) : Search :=
  names.foldl (visit successors names.length) {}

end Search

namespace Dependencies

/-- The targets that list a name among their dependencies, sorted. -/
def dependents (d : Dependencies) (name : String) : List String :=
  (d.edges.filter fun edge => edge.2.contains name).map Prod.fst

/-- The first target that depends on one of `names` without being taken before it.
-/
def outOfTurn? (d : Dependencies) : (taken names : List String) → Option String
  | _, [] => none
  | taken, name :: names =>
    match (d.dependents name).find? fun other => !(name :: taken).contains other with
    | some other => some other
    | none => d.outOfTurn? (name :: taken) names

/-- The targets, each after all targets that it depends on, or a target on a cycle.
-/
def buildOrder (d : Dependencies) : Except DependencyCycle (List String) :=
  let known := d.resolved
  let search := Search.visitAll known.of known.names
  match search.discovered.reverse.find? fun name => (known.of name).contains name with
  | some name => .error ⟨name⟩
  | none =>
    match known.outOfTurn? [] search.finished with
    | some name => .error ⟨name⟩
    | none => .ok search.finished.reverse

/-! ### What an order and a cycle are -/

def DependsOn (d : Dependencies) (a b : String) : Prop :=
  b ∈ d.of a ∧ b ∈ d.names

/-- To depend on a target is to list its name and to know it. -/
theorem dependsOn_iff {d : Dependencies} {a b : String} :
    d.DependsOn a b ↔ b ∈ d.resolved.of a := by
  simp [DependsOn, of_resolved, isKnown]

/-- A target leads to another in one or more steps. -/
inductive Leads (d : Dependencies) : String → String → Prop where
  | direct {a b : String} : d.DependsOn a b → Leads d a b
  | step {a b c : String} : d.DependsOn a b → Leads d b c → Leads d a c

/-- Every target stands once, after all targets that it depends on. -/
structure IsBuildOrder (d : Dependencies) (order : List String) : Prop where
  perm : order.Perm d.names
  before : ∀ a b, a ∈ d.names → d.DependsOn a b → order.idxOf b < order.idxOf a

end Dependencies

end SolutionTree
