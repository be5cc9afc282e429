import SolutionTree.Extensions
import SolutionTree.FileSystem

/-!
The files directly inside a directory, parted by kind.

Each part is sorted by name, so a listing does not depend on the order in which the
file system lists entries. Subdirectories are no part of it.
-/

namespace SolutionTree

/-- The names of the files directly inside a directory, parted by kind. -/
structure Listing where
  path : Path
  sources : List String := []
  headers : List String := []
  others : List String := []
  deriving DecidableEq, Repr, Inhabited

namespace Listing

/-- The names of one kind among the entries of a directory, sorted. -/
def namesOf (extensions : Extensions) (path : Path) (kind : FileKind)
    (entries : List (String × FileTree)) : List String :=
  let kept := entries.filter fun entry =>
    entry.2.isFile && extensions.kindOf (path.child entry.1) == kind
  (kept.map Prod.fst).mergeSort fun a b => decide (a ≤ b)

/-- The listing of a directory with the given entries. -/
def ofEntries (extensions : Extensions) (path : Path) (entries : List (String × FileTree)) :
    Listing where
  path := path
  sources := namesOf extensions path .source entries
  headers := namesOf extensions path .header entries
  others := namesOf extensions path .other entries

def read (fs : FileSystem) (extensions : Extensions) (path : Path) : Except IoError Listing :=
  (fs.readDir path).map (ofEntries extensions path)

/-- Whether the directory makes a target: it directly holds a source. -/
def hasSources (listing : Listing) : Bool :=
  !listing.sources.isEmpty

def sourcePaths (listing : Listing) : List Path :=
  listing.sources.map listing.path.child

def headerPaths (listing : Listing) : List Path :=
  listing.headers.map listing.path.child

end Listing

end SolutionTree
