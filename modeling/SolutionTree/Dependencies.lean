import SolutionTree.Catalog

/-!
Direct dependencies between targets, by name.

A declared name is matched against a target's name, then against the directory
beside the declaring one, then against a directory below the source root; a name
that matches nothing is kept as it is and is unresolved. A runnable has the
dependencies of its owner, and then the owner itself. The lists are one level deep,
in declared order, with repeated names kept.
-/

namespace SolutionTree

/-- Targets and the names that each depends on, in the order of the targets' names.
-/
structure Dependencies where
  edges : List (String × List String)
  deriving DecidableEq, Repr

/-! ### Resolving names -/

/-- The directory beside a directory that a name stands for. -/
def siblingDir (declaringDir name : String) : String :=
  let parent := Target.parentDir declaringDir
  if parent = "" then name else parent ++ "/" ++ name

/-- A name without slashes at its ends. -/
def withoutSlashes (name : String) : String :=
  String.ofList
    (((name.toList.dropWhile (· == '/')).reverse.dropWhile (· == '/')).reverse)

/-- The target that a name stands for where it is declared. -/
def Catalog.resolve? (c : Catalog) (declaringDir name : String) : Option Target :=
  match c.find? name with
  | some t => some t
  | none =>
    match c.findDir? (siblingDir declaringDir name) with
    | some t => some t
    | none => c.findDir? (withoutSlashes name)

/-- The name of the target that a name stands for, or the name itself. -/
def Catalog.canonicalName (c : Catalog) (declaringDir name : String) : String :=
  match c.resolve? declaringDir name with
  | some t => t.name
  | none => name

/-- The names that a target depends on. -/
def Catalog.dependenciesOf (c : Catalog) (t : Target) : List String :=
  match t.runnableOwner? with
  | some owner => owner.dependencies.map (c.canonicalName owner.relativeDir) ++ [owner.name]
  | none => t.manifest.dependencies.map (c.canonicalName t.relativeDir)

namespace Dependencies

/-- The dependencies of all targets. -/
def ofCatalog (c : Catalog) : Dependencies :=
  let edges := c.targets.map fun t => (t.name, c.dependenciesOf t)
  ⟨edges.mergeSort fun a b => decide (a.1 ≤ b.1)⟩

def size (d : Dependencies) : Nat :=
  d.edges.length

def names (d : Dependencies) : List String :=
  d.edges.map Prod.fst

def of (d : Dependencies) (name : String) : List String :=
  (d.edges.lookup name).getD []

/-- Whether a name is a target's. -/
def isKnown (d : Dependencies) (name : String) : Bool :=
  d.names.contains name

/-- Targets and the names among their dependencies that are no target's. -/
def unresolved (d : Dependencies) : List (String × String) :=
  d.edges.flatMap fun edge =>
    (edge.2.filter fun name => !d.isKnown name).map (edge.1, ·)

/-- The dependencies without the names that are no target's. -/
def resolved (d : Dependencies) : Dependencies :=
  ⟨d.edges.map fun edge => (edge.1, edge.2.filter d.isKnown)⟩

@[simp] theorem names_resolved (d : Dependencies) : d.resolved.names = d.names := by
  simp [resolved, names]

/-- Dropping unknown names from all lists is dropping them from each one that is
asked for. -/
theorem of_resolved (d : Dependencies) (name : String) :
    d.resolved.of name = (d.of name).filter d.isKnown := by
  have key : ∀ (known : String → Bool) (edges : List (String × List String)),
      (edges.map fun edge => (edge.1, edge.2.filter known)).lookup name =
        (edges.lookup name).map (List.filter known) := by
    intro known edges
    induction edges with
    | nil => rfl
    | cons edge edges ih =>
      rw [List.map_cons, List.lookup_cons, List.lookup_cons]
      split <;> simp [ih]
  simp only [of, resolved, key]
  cases d.edges.lookup name <;> rfl

end Dependencies

end SolutionTree
