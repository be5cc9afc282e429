import SolutionTree.Path

/-!
Paths relative to a directory.

`relativeSegments source base` leads from the directory `base` to `source`: one `..`
for each segment of `base` after the shared start, then the rest of `source`. The
shared start never takes the last segment of `source`, so a path whose last segment
is also met in `base` still walks up one level, and the result always ends with that
segment. All of it is text work: it is right for absolute paths without `.`, `..`
and empty segments in `base`.
-/

namespace SolutionTree.Path

/-- How many segments `source` and `base` share at the start, the last of `source`
apart. -/
def sharedCount : List String → List String → Nat
  | s :: next :: source, b :: base => if s = b then sharedCount (next :: source) base + 1 else 0
  | _, _ => 0

/-- The segments that lead from `base` to `source`. -/
def relativeSegments (source base : List String) : List String :=
  let shared := sharedCount source base
  List.replicate (base.length - shared) ".." ++ source.drop shared

/-- The text that leads from `base` to `source`, both written with the separator
`sep`. -/
def relativeText (source base : String) (sep : Char) : String :=
  String.intercalate (String.singleton sep)
    (relativeSegments (Text.pieces sep source) (Text.pieces sep base))

/-- The path written with slashes for backslashes and without slashes at its end;
the root stays a slash. -/
def slashed (p : Path) : String :=
  let cs := (Text.replace '\\' '/' p.text).toList
  let trimmed := (cs.reverse.dropWhile (· == '/')).reverse
  if trimmed.isEmpty && cs.head? == some '/' then "/" else String.ofList trimmed

/-- The text that leads from the directory `base` to `source`. -/
def relative (source base : Path) : String :=
  relativeText source.slashed base.slashed '/'

/-- The last segment of the source is never shared. This is why a relative text is
never empty, and why a directory is reached from itself by its own name. -/
theorem sharedCount_lt {source : List String} (base : List String) (h : source ≠ []) :
    sharedCount source base < source.length := by
  fun_induction sharedCount source base with
  | case1 next source b base ih => simpa using ih (by simp)
  | case2 => simp
  | case3 =>
    exact List.length_pos_iff.mpr h

theorem sharedCount_le (source base : List String) : sharedCount source base ≤ base.length := by
  fun_induction sharedCount source base with
  | case1 next source b base ih => simpa using ih
  | case2 => simp
  | case3 => simp

end SolutionTree.Path
