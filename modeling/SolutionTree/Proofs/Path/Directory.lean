import Mathlib.Data.List.Basic
import SolutionTree.Path.Directory
import SolutionTree.Proofs.Path.Child
import SolutionTree.Proofs.References.Directory
import SolutionTree.Proofs.Text.Utf8

/-!
Directories as texts, and the names that they are made of.

`dirText` writes names with slashes between them. For plain names the text says as
much as the names (`dirText_injective`): `textBelow` writes it, `descend` reads it
back, and what a target takes from the text of its directory (its kind, the
directory above it, the flattened name) is taken from the names.
-/

namespace SolutionTree

namespace Path

/-- The text of a directory that names lead to. -/
def dirText (names : List String) : String :=
  String.intercalate "/" names

@[simp] theorem dirText_nil : dirText [] = "" := by
  simp [dirText]

theorem dirText_concat {names : List String} {name : String} (hne : names ≠ []) :
    dirText (names ++ [name]) = dirText names ++ "/" ++ name := by
  rw [dirText, String.intercalate_append_of_ne_nil hne (by simp), String.intercalate_singleton,
    dirText]

/-- The text below a root goes by the components, however the directory is spelled.
-/
theorem textBelow_of_components {root dir : Path} {names : List String}
    (h : dir.components = root.components ++ names.map .name) :
    root.textBelow dir = dirText names := by
  have hnames : names.map (fun name => Text.lossy (Text.utf8 name)) = names := by
    simp [Text.lossy_utf8]
  simp [textBelow, OsPath.textBelow, OsPath.below?, os, h, dirText, OsPath.Step.ofComponent,
    OsPath.Step.text, Function.comp_def, hnames]

section Plain

variable {root : Path} {names : List String} (h : ∀ name ∈ names, isPlain name = true)
include h

theorem slash_notMem_names : ∀ name ∈ names, '/' ∉ name.toList :=
  fun name hm => slash_notMem_of_isPlain (h name hm)

/-- The names of a directory are read back from its text, in which no name has a
slash. -/
theorem filter_pieces_dirText : (Text.pieces '/' (dirText names)).filter (· ≠ "") = names := by
  by_cases hne : names = []
  · subst hne
    rw [dirText_nil, Text.pieces_of_notMem (by simp)]
    rfl
  · have hpieces : Text.pieces '/' (dirText names) = names :=
      Text.pieces_intercalate (slash_notMem_names h) hne
    rw [hpieces, List.filter_eq_self]
    intro name hm
    simpa using ne_empty_of_isPlain (h name hm)

/-- Directories are told apart by their texts. -/
theorem dirText_injective {names' : List String} (h' : ∀ name ∈ names', isPlain name = true)
    (heq : dirText names = dirText names') : names = names' := by
  rw [← filter_pieces_dirText h, heq, filter_pieces_dirText h']

theorem dirText_eq_empty_iff : dirText names = "" ↔ names = [] := by
  constructor
  · intro hempty
    rw [← dirText_nil] at hempty
    exact dirText_injective h (by simp) hempty
  · rintro rfl
    exact dirText_nil

/-- **The text of a directory below a root is that of the names that lead to it.**
-/
theorem textBelow_under (hroot : root.text ≠ "") :
    root.textBelow (root.under names) = dirText names :=
  textBelow_of_components (components_under hroot h)

/-- **The text of a directory leads to it** from the root that it is relative to. -/
theorem descend_dirText : root.descend (dirText names) = root.under names := by
  rw [descend, filter_pieces_dirText h, under]

end Plain

end Path

namespace Target

open SolutionTree.Path

variable {names : List String}

section Last

variable {name : String} (h : isPlain name = true)
include h

/-- The directory above is what the text has before its last slash. -/
theorem parentDir_dirText_concat : parentDir (dirText (names ++ [name])) = dirText names := by
  have hslash := slash_notMem_of_isPlain h
  rw [parentDir_eq_iff]
  by_cases hne : names = []
  · subst hne
    exact .top (by simpa [dirText] using hslash)
  · exact .below hslash (dirText_concat hne)

theorem lastName_dirText_concat : lastName (dirText (names ++ [name])) = name := by
  have hslash := slash_notMem_of_isPlain h
  by_cases hne : names = []
  · subst hne
    simp [lastName, dirText, Text.afterLast_of_notMem hslash]
  · have hcs : (dirText (names ++ [name])).toList =
        (dirText names).toList ++ '/' :: name.toList := by
      simp [dirText_concat hne]
    rw [lastName, hcs, Text.afterLast_append hslash, String.ofList_toList]

end Last

section Plain

variable (h : ∀ name ∈ names, isPlain name = true)
include h

theorem parentDir_dirText (hne : names ≠ []) :
    parentDir (dirText names) = dirText names.dropLast := by
  obtain ⟨above, last, rfl⟩ := (List.eq_nil_or_concat' names).resolve_left hne
  rw [List.dropLast_concat]
  exact parentDir_dirText_concat (h last (by simp))

/-- **A flattened name has underscores between the names that lead to the
directory.** -/
theorem flattenedName_dirText {rootName : String} :
    flattenedName (dirText names) rootName =
      if names = [] then rootName else String.intercalate "_" names := by
  have hreplace : Text.replace '/' '_' (dirText names) = String.intercalate "_" names :=
    Text.replace_intercalate '_' (slash_notMem_names h)
  rw [flattenedName, hreplace]
  simp only [dirText_eq_empty_iff h]

/-- The kind of the target in a directory, by the last of the names that lead to it.
-/
theorem classify_dirText {runnable : RunnableNames} {manifest : Manifest} :
    classify runnable (dirText names) manifest =
      if manifest.executable.isSome then .executable
      else if names.getLast? = some runnable.test then .test
      else if names.getLast? = some runnable.script then .script
      else .library := by
  rcases List.eq_nil_or_concat' names with rfl | ⟨above, last, rfl⟩
  · have hlast : lastName "" = "" := by simp [lastName, Text.afterLast_of_notMem]
    simp [classify, Manifest.isExecutable, hlast]
  · have hplain := h last (by simp)
    simp [classify, Manifest.isExecutable, lastName_dirText_concat hplain,
      ne_empty_of_isPlain hplain]

/-- A directory makes a test or a script when its last name says so and its manifest
names no executable. -/
theorem isRunnable_classify_dirText_iff {runnable : RunnableNames} {manifest : Manifest} :
    (classify runnable (dirText names) manifest).isRunnable = true ↔
      manifest.executable = none ∧
        (names.getLast? = some runnable.test ∨ names.getLast? = some runnable.script) := by
  rw [classify_dirText h]
  cases manifest.executable with
  | some name => simp [Kind.isRunnable]
  | none =>
    by_cases htest : names.getLast? = some runnable.test
    · simp [htest, Kind.isRunnable]
    · by_cases hscript : names.getLast? = some runnable.script
      · simp only [Option.isSome_none, Bool.false_eq_true, if_neg htest, if_pos hscript]
        simp [hscript, Kind.isRunnable]
      · simp [htest, hscript, Kind.isRunnable]

end Plain

end Target

end SolutionTree
