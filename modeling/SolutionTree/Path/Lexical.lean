import SolutionTree.Path

/-!
The place that a chain of segments denotes, read as text alone.

A place is the list of names from the root. `..` goes back one name and stays at the
root, `.` and the empty segment stay where they are, and every other segment goes
down. `place` reads an absolute path from the root; `placeFrom` reads segments from
a place.
-/

namespace SolutionTree.Path

/-- The place that one segment leads to. -/
def stepPlace (place : List String) (segment : String) : List String :=
  if isIdle segment then place
  else if segment = ".." then place.dropLast
  else place ++ [segment]

def placeFrom (place : List String) (segments : List String) : List String :=
  segments.foldl stepPlace place

def place (p : Path) : List String :=
  placeFrom [] p.segments

def ofPlace (names : List String) : Path :=
  ⟨"/" ++ String.intercalate "/" names⟩

/-- A name that stands for a step down. -/
def isPlain (name : String) : Bool :=
  !isIdle name && name != ".." && !name.toList.contains '/'

@[simp] theorem placeFrom_nil (place : List String) : placeFrom place [] = place := rfl

@[simp] theorem placeFrom_cons (place : List String) (s : String) (segments : List String) :
    placeFrom place (s :: segments) = placeFrom (stepPlace place s) segments := rfl

/-- Segments go on from where the segments before them lead to. -/
theorem placeFrom_append (place xs ys : List String) :
    placeFrom place (xs ++ ys) = placeFrom (placeFrom place xs) ys :=
  List.foldl_append

end SolutionTree.Path
