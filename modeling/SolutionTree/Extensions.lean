import SolutionTree.Path

/-!
How a file takes part in a target, told by the extension of its name.

Extensions are compared without regard to ASCII case, and one that is listed both
for sources and for headers is a source's.
-/

namespace SolutionTree

/-- How a file takes part in a target. -/
inductive FileKind where
  | source
  | header
  | other
  deriving DecidableEq, Repr

def FileKind.word : FileKind → String
  | .source => "source"
  | .header => "header"
  | .other => "other"

/-- The extensions of sources and of headers, without their dots. -/
structure Extensions where
  sources : List String := ["cpp", "cc", "cxx", "c"]
  headers : List String := ["hpp", "hh", "hxx", "h"]
  deriving DecidableEq, Repr

namespace Extensions

/-- A text with its ASCII letters in lower case. -/
def folded (s : String) : List Char :=
  s.toList.map Char.toLower

def lists (extensions : List String) (extension : String) : Bool :=
  extensions.any fun e => folded e == folded extension

/-- How the file at a path takes part. -/
def kindOf (extensions : Extensions) (p : Path) : FileKind :=
  match p.extension? with
  | none => .other
  | some extension =>
    if lists extensions.sources extension then .source
    else if lists extensions.headers extension then .header
    else .other

end Extensions

end SolutionTree
