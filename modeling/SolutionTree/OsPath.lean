import SolutionTree.Path
import SolutionTree.Text.Utf8

/-!
Paths whose names are bytes.

To a file system any bytes are a name, and two paths are the same when their steps
are. `textBelow` writes the names from a root down to a directory with slashes
between them, as far as their bytes are text; and `descend` puts the names in such a
text below a root again. A `Path` is a text itself, and `Path.os` is what it stands
for here.
-/

namespace SolutionTree

/-- One step of a path. -/
inductive OsPath.Step where
  | root
  | current
  | parent
  | name (bytes : List UInt8)
  deriving DecidableEq, Repr

structure OsPath where
  steps : List OsPath.Step
  deriving DecidableEq, Repr

namespace OsPath

namespace Step

def ofComponent : Path.Component → Step
  | .root => .root
  | .current => .current
  | .parent => .parent
  | .name text => .name (Text.utf8 text)

/-- A step as a text, in which bytes that are none are replaced. -/
def text : Step → String
  | .root => "/"
  | .current => "."
  | .parent => ".."
  | .name bytes => Text.lossy bytes

end Step

/-- The steps of `p` after those of `base`; none when `p` is not below `base`. -/
def below? (base p : OsPath) : Option (List Step) :=
  if base.steps.isPrefixOf p.steps then some (p.steps.drop base.steps.length) else none

/-- A directory as a text below `root`; what is not below it has the empty text. -/
def textBelow (root dir : OsPath) : String :=
  match root.below? dir with
  | none => ""
  | some steps => String.intercalate "/" (steps.map Step.text)

/-- The path behind a segment. One that stands for no step changes nothing, but for
a dot on the empty path. -/
def child (base : OsPath) (segment : String) : OsPath :=
  match Path.stepOf? segment with
  | some component => ⟨base.steps ++ [.ofComponent component]⟩
  | none => if base.steps = [] ∧ segment = "." then ⟨[.current]⟩ else base

/-- The directory that a text stands for below `root`. -/
def descend (root : OsPath) (text : String) : OsPath :=
  ((Text.pieces '/' text).filter (· ≠ "")).foldl child root

/-- The path without its last step; none for the root and the empty path. -/
def parent? (p : OsPath) : Option OsPath :=
  match p.steps.getLast? with
  | none => none
  | some .root => none
  | some _ => some ⟨p.steps.dropLast⟩

end OsPath

/-- The path that a text stands for. -/
def Path.os (p : Path) : OsPath :=
  ⟨p.components.map OsPath.Step.ofComponent⟩

end SolutionTree
