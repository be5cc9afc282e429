import SolutionTree.Dependencies
import SolutionTree.Fingerprint
import SolutionTree.Settings

/-!
Solutions: all targets in the order in which they are written out, with their
references.

The main target comes first, then all other libraries and executables, then tests
and scripts, each by the name of its project file. A reference is a dependency that
names a target, with the identifier of that target; dependencies without a target
are left out. The fingerprint covers everything that is written out of a solution.
-/

namespace SolutionTree

/-- A dependency and the identifier of its target. -/
structure Reference where
  name : String
  id : Identifier
  deriving DecidableEq, Repr

/-- A target in a solution. -/
structure Member where
  target : Target
  fileName : String
  references : List Reference
  deriving DecidableEq, Repr, Inhabited

/-- What is asked of a solution. -/
structure SolutionOptions where
  name : String := "solution"
  main : Option String := none
  extension : String := "vcxproj"
  deriving DecidableEq, Repr

def SolutionSettings.options (s : SolutionSettings) : SolutionOptions where
  name := s.name
  main := s.main
  extension := s.projectExtension

/-- All targets in order, with their references. -/
structure Solution where
  name : String
  main : Option String
  members : List Member
  deriving DecidableEq, Repr

/-- Picks the main target: the one asked for, which must not be a runnable, or the
only executable. An empty name asks for none. -/
def Catalog.selectMain (c : Catalog) (wanted : Option String) : Except Fault (Option String) :=
  match wanted.filter (· ≠ "") with
  | none => .ok (c.onlyExecutable?.map Target.name)
  | some name =>
    match c.find? name with
    | some t => if t.kind.isRunnable then .error (.unknownMain name) else .ok (some name)
    | none => .error (.unknownMain name)

/-- The identifiers of all targets, by name. -/
def Catalog.identifiers (c : Catalog) : Dictionary Identifier :=
  .ofList (c.targets.map fun t => (t.name, t.id))

namespace Member

/-- The group of a member: the main target, then libraries and executables, then
runnables. -/
def rank (main : Option String) (m : Member) : Nat :=
  if main = some m.target.name then 0
  else if m.target.kind.isRunnable then 2
  else 1

/-- The order in which members are written out: by group, then by file name. -/
def order (main : Option String) (a b : Member) : Ordering :=
  (compare (a.rank main) (b.rank main)).then (compare a.fileName b.fileName)

/-- Whether a member may stand before another. -/
def inOrder (main : Option String) (a b : Member) : Bool :=
  order main a b != .gt

/-- The member that a target becomes. A dependency that has no identifier is left
out. -/
def ofTarget (identifiers : Dictionary Identifier) (d : Dependencies) (extension : String)
    (t : Target) : Member where
  target := t
  fileName := t.fileName extension
  references := (d.of t.name).filterMap fun name =>
    (identifiers.get? name).map fun id => ⟨name, id⟩

def stream (m : Member) : List UInt8 :=
  Fingerprint.ofTexts [m.fileName, m.target.kind.word, m.target.id.text] ++
    Fingerprint.ofTexts (m.references.map Reference.name) ++
    Fingerprint.ofTexts (m.references.map fun r => r.id.text) ++
    Fingerprint.ofText ""

end Member

namespace Solution

/-- Assembles the solution of a catalog. -/
def assemble (c : Catalog) (d : Dependencies) (options : SolutionOptions) :
    Except Fault Solution :=
  match c.selectMain options.main with
  | .error fault => .error fault
  | .ok main =>
    let members := c.targets.map (Member.ofTarget c.identifiers d options.extension)
    .ok { name := options.name, main, members := members.mergeSort (Member.inOrder main) }

def size (s : Solution) : Nat :=
  s.members.length

def find? (s : Solution) (name : String) : Option Member :=
  s.members.find? fun m => m.target.name = name

def stream (s : Solution) : List UInt8 :=
  Fingerprint.ofText s.name ++ Fingerprint.ofOption s.main ++ s.members.flatMap Member.stream

def fingerprint (s : Solution) : String :=
  Fingerprint.finish s.stream

end Solution

end SolutionTree
