/-!
Pieces of a text between the occurrences of one character.

`pieces` cuts and `String.intercalate` joins again; `intercalate_pieces` says that
nothing is lost. `beforeLast?` and `afterLast` cut at the last occurrence only.
-/

namespace SolutionTree.Text

/-- The pieces of a text between the occurrences of `sep`; there is always at least
one. -/
def pieces (sep : Char) (s : String) : List String :=
  (s.toList.splitOn sep).map String.ofList

/-- What stands after the last `sep`, or the whole text without one. -/
def afterLast (sep : Char) (cs : List Char) : List Char :=
  (cs.reverse.takeWhile (· != sep)).reverse

/-- What stands before the last `sep`, if there is one. -/
def beforeLast? (sep : Char) (cs : List Char) : Option (List Char) :=
  match cs.reverse.dropWhile (· != sep) with
  | [] => none
  | _ :: before => some before.reverse

def replace (old new : Char) (s : String) : String :=
  String.ofList (s.toList.map fun c => if c = old then new else c)

theorem intercalate_pieces (sep : Char) (s : String) :
    String.intercalate (String.singleton sep) (pieces sep s) = s := by
  apply String.toList_inj.mp
  simp [pieces, String.toList_intercalate, List.intercalate_splitOn, Function.comp_def]

end SolutionTree.Text
