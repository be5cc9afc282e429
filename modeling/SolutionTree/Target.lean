import SolutionTree.Identifier.Text
import SolutionTree.Listing
import SolutionTree.Manifest

/-!
Targets: what a source tree is made of.

A target is a library, an executable, or a runnable, which is a test or a script
that is run against the target of the directory above it, its owner. Directories are
named by their text below the source root, with slashes between the names and the
empty text for the root itself.
-/

namespace SolutionTree

inductive Target.Kind where
  | library
  | executable
  | test
  | script
  deriving DecidableEq, Repr, Inhabited

namespace Target.Kind

def word : Kind → String
  | .library => "library"
  | .executable => "executable"
  | .test => "test"
  | .script => "script"

def ofWord? : String → Option Kind
  | "library" => some .library
  | "executable" => some .executable
  | "test" => some .test
  | "script" => some .script
  | _ => none

/-- Whether targets of the kind are built and then run: tests and scripts. -/
def isRunnable : Kind → Bool
  | .test => true
  | .script => true
  | _ => false

/-- A kind is read back from its word. -/
@[simp] theorem ofWord?_word (kind : Kind) : ofWord? kind.word = some kind := by
  cases kind <;> rfl

theorem isRunnable_eq_false_iff {kind : Kind} :
    kind.isRunnable = false ↔ kind = .library ∨ kind = .executable := by
  cases kind <;> decide

theorem isRunnable_eq_true_iff {kind : Kind} :
    kind.isRunnable = true ↔ kind = .test ∨ kind = .script := by
  cases kind <;> decide

end Target.Kind

/-- The directory above a runnable, and what it declares. -/
structure Owner where
  /-- The name of the target that the directory makes. -/
  name : String
  relativeDir : String
  dependencies : List String
  deriving DecidableEq, Repr

/-- One target of a source tree. -/
structure Target where
  name : String
  kind : Target.Kind
  id : Identifier
  relativeDir : String
  files : Listing
  manifest : Manifest
  owner : Option Owner
  deriving DecidableEq, Repr, Inhabited

namespace Target

def dir (t : Target) : Path :=
  t.files.path

def fileName (t : Target) (extension : String) : String :=
  t.name ++ "." ++ extension

/-- The owner of a runnable; other targets have none that counts. -/
def runnableOwner? (t : Target) : Option Owner :=
  if t.kind.isRunnable then t.owner else none

/-! ### Names from directories -/

/-- The name that a directory gives its target: its text with underscores for
slashes, and a name of its own for the source root. -/
def flattenedName (relativeDir rootName : String) : String :=
  if relativeDir = "" then rootName else Text.replace '/' '_' relativeDir

/-- The directory above a directory; the source root is above those that stand in
it. -/
def parentDir (relativeDir : String) : String :=
  match Text.beforeLast? '/' relativeDir.toList with
  | none => ""
  | some parent => String.ofList parent

def lastName (relativeDir : String) : String :=
  String.ofList (Text.afterLast '/' relativeDir.toList)

/-- A directory as it is shown: the source root is a dot. -/
def shownDir (relativeDir : String) : String :=
  if relativeDir = "" then "." else relativeDir

/-- The names that make a directory a test's or a script's. -/
structure RunnableNames where
  test : String := "test"
  script : String := "script"
  deriving DecidableEq, Repr

/-- The kind of the target in a directory: an executable if the manifest names one,
else by the last name of the directory. -/
def classify (names : RunnableNames) (relativeDir : String) (manifest : Manifest) : Kind :=
  let last := lastName relativeDir
  if manifest.isExecutable then .executable
  else if last = "" then .library
  else if last = names.test then .test
  else if last = names.script then .script
  else .library

end Target

end SolutionTree
