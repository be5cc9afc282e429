import SolutionTree.OsPath

/-!
Directories as texts below a root.

`textBelow` writes the names from a root down to a directory with slashes between
them, and the empty text for the root itself; `descend` reads such a text back and
puts its names below a root.
-/

namespace SolutionTree.Path

/-- A directory as a text below `root`; what is not below it has the empty text. -/
def textBelow (root dir : Path) : String :=
  root.os.textBelow dir.os

/-- The directory that a text stands for below `root`. -/
def descend (root : Path) (text : String) : Path :=
  ((Text.pieces '/' text).filter (· ≠ "")).foldl child root

end SolutionTree.Path
