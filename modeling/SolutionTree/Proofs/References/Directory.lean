import SolutionTree.Dependencies
import SolutionTree.Proofs.Text.Pieces

/-!
Directories that a declared name may mean, said without the functions that find
them.

`IsParent` says what the directory above a directory is, and `IsBare` what a name
without slashes at its ends is. Each holds of one text only, the one that
`Target.parentDir` and `withoutSlashes` give (`parentDir_eq_iff`,
`isBare_withoutSlashes`, `IsBare.eq_withoutSlashes`).
-/

namespace SolutionTree

/-- The directory above a directory: what stands before its last slash, and the
source root for a directory without slashes. -/
inductive IsParent (relativeDir : String) : String → Prop where
  | below {parent last : String} :
      '/' ∉ last.toList → relativeDir = parent ++ "/" ++ last → IsParent relativeDir parent
  | top : '/' ∉ relativeDir.toList → IsParent relativeDir ""

/-- A name without the slashes that it starts and ends with. -/
structure IsBare (name bare : String) : Prop where
  split : ∃ m n, name.toList = List.replicate m '/' ++ bare.toList ++ List.replicate n '/'
  head_ne : bare.toList.head? ≠ some '/'
  last_ne : bare.toList.getLast? ≠ some '/'

/-- Every directory has one above it; the source root is above itself. -/
theorem isParent_parentDir (relativeDir : String) :
    IsParent relativeDir (Target.parentDir relativeDir) := by
  by_cases h : '/' ∈ relativeDir.toList
  · obtain ⟨before, after, heq, hnot⟩ := Text.exists_last_split h
    have hdir : Target.parentDir relativeDir = String.ofList before := by
      rw [Target.parentDir, heq, Text.beforeLast?_append hnot]
    have hafter : '/' ∉ (String.ofList after).toList := by simpa using hnot
    rw [hdir]
    refine .below hafter ?_
    apply String.toList_inj.mp
    simp [heq]
  · have hdir : Target.parentDir relativeDir = "" := by
      rw [Target.parentDir, Text.beforeLast?_of_notMem h]
    rw [hdir]
    exact .top h

/-- No directory has two above it. -/
theorem IsParent.eq_parentDir {relativeDir parent : String} (h : IsParent relativeDir parent) :
    parent = Target.parentDir relativeDir := by
  cases h with
  | @below _ last hlast heq =>
    have hcs : relativeDir.toList = parent.toList ++ '/' :: last.toList := by simp [heq]
    rw [Target.parentDir, hcs, Text.beforeLast?_append hlast]
    simp
  | top hnot => rw [Target.parentDir, Text.beforeLast?_of_notMem hnot]

theorem parentDir_eq_iff {relativeDir parent : String} :
    Target.parentDir relativeDir = parent ↔ IsParent relativeDir parent :=
  ⟨fun h => h ▸ isParent_parentDir relativeDir, fun h => h.eq_parentDir.symm⟩

/-- The characters of a text without the slashes at its ends. -/
def trimmedSlashes (cs : List Char) : List Char :=
  ((cs.dropWhile (· == '/')).reverse.dropWhile (· == '/')).reverse

theorem toList_withoutSlashes (name : String) :
    (withoutSlashes name).toList = trimmedSlashes name.toList := by
  simp [withoutSlashes, trimmedSlashes]

/-- What is taken from the start of a text for being a slash is slashes. -/
theorem exists_replicate_append_dropWhile (cs : List Char) :
    ∃ n, cs = List.replicate n '/' ++ cs.dropWhile (· == '/') := by
  refine ⟨(cs.takeWhile (· == '/')).length, ?_⟩
  have hall : cs.takeWhile (· == '/') = List.replicate (cs.takeWhile (· == '/')).length '/' := by
    refine List.eq_replicate_iff.mpr ⟨rfl, fun c hc => ?_⟩
    simpa using List.all_eq_true.mp List.all_takeWhile c hc
  rw [← hall, List.takeWhile_append_dropWhile]

theorem exists_trimmedSlashes_append (cs : List Char) :
    ∃ n, cs.dropWhile (· == '/') = trimmedSlashes cs ++ List.replicate n '/' := by
  obtain ⟨n, hn⟩ := exists_replicate_append_dropWhile (cs.dropWhile (· == '/')).reverse
  refine ⟨n, ?_⟩
  rw [← List.reverse_reverse (cs.dropWhile (· == '/')), hn]
  simp [trimmedSlashes]

theorem head?_dropWhile_slash_ne (cs : List Char) :
    (cs.dropWhile (· == '/')).head? ≠ some '/' := by
  intro h
  have hfirst := List.head?_dropWhile_not (· == '/') cs
  rw [h] at hfirst
  simp at hfirst

/-- Every name has a form without slashes around it. -/
theorem isBare_withoutSlashes (name : String) : IsBare name (withoutSlashes name) where
  split := by
    obtain ⟨m, hm⟩ := exists_replicate_append_dropWhile name.toList
    obtain ⟨n, hn⟩ := exists_trimmedSlashes_append name.toList
    refine ⟨m, n, ?_⟩
    rw [toList_withoutSlashes, List.append_assoc, ← hn]
    exact hm
  head_ne := by
    obtain ⟨n, hn⟩ := exists_trimmedSlashes_append name.toList
    rw [toList_withoutSlashes]
    intro h
    apply head?_dropWhile_slash_ne name.toList
    rw [hn, List.head?_append, h, Option.some_or]
  last_ne := by
    rw [toList_withoutSlashes, trimmedSlashes, List.getLast?_reverse]
    exact head?_dropWhile_slash_ne _

/-- No name has two such forms. -/
theorem IsBare.eq_withoutSlashes {name bare : String} (h : IsBare name bare) :
    bare = withoutSlashes name := by
  obtain ⟨m, n, hsplit⟩ := h.split
  apply String.toList_inj.mp
  rw [toList_withoutSlashes, hsplit, trimmedSlashes, List.append_assoc,
    List.dropWhile_append_of_pos (by simp)]
  cases hbare : bare.toList with
  | nil => simp
  | cons c cs =>
    have hhead : (bare.toList ++ List.replicate n '/').head? ≠ some '/' := by
      have := h.head_ne
      rw [hbare] at this ⊢
      simpa using this
    rw [← hbare, List.dropWhile_beq_eq_self_of_head?_ne hhead, List.reverse_append,
      List.dropWhile_append_of_pos (by simp)]
    have hlast : bare.toList.reverse.head? ≠ some '/' := by
      rw [List.head?_reverse]
      exact h.last_ne
    rw [List.dropWhile_beq_eq_self_of_head?_ne hlast, List.reverse_reverse]

end SolutionTree
