import Mathlib.Data.String.Basic
import SolutionTree.Listing
import SolutionTree.Proofs.FileSystem.Follow
import SolutionTree.Proofs.FileTree.Reordered
import SolutionTree.Proofs.Sorting

/-!
File systems that list their directories in different orders.

A path leads to the same in both, or fails in the same way (`SameOutcome.node?`),
whatever detours it takes. So files are read alike (`readText_eq_of_reordered`), and
so are listings, which are sorted (`Listing.read_eq_of_reordered`).
-/

namespace SolutionTree

open FileTree (Position)

/-- Two runs that fail alike, or come to results that are related. -/
inductive SameOutcome {ε α β : Type} (related : α → β → Prop) :
    Except ε α → Except ε β → Prop where
  | error (e : ε) : SameOutcome related (.error e) (.error e)
  | ok {a : α} {b : β} : related a b → SameOutcome related (.ok a) (.ok b)

/-- Runs of the same outcome fail with one error, or both go well. -/
theorem SameOutcome.error_or_ok {ε α β : Type} {related : α → β → Prop} {x : Except ε α}
    {y : Except ε β} (h : SameOutcome related x y) :
    (∃ e, x = .error e ∧ y = .error e) ∨ ∃ a b, x = .ok a ∧ y = .ok b ∧ related a b := by
  cases h with
  | error e => exact .inl ⟨e, rfl, rfl⟩
  | ok hab => exact .inr ⟨_, _, rfl, rfl, hab⟩

/-- Two file systems that are told apart by nothing but the order in which
directories are listed. -/
structure FileSystem.Reordered (fs fs' : FileSystem) : Prop where
  tree : fs.tree.Reordered fs'.tree
  cwd : fs.cwd = fs'.cwd

variable {fs fs' : FileSystem}

namespace FileSystem

/-! ### Paths -/

/-- The order of entries does not count for what names lead to, since no name stands
twice. -/
theorem follow_reordered {here here' : Position} (h : here.Reordered here')
    (segments : List String) :
    SameOutcome Position.Reordered (follow here segments) (follow here' segments) := by
  induction segments generalizing here here' with
  | nil => exact .ok h
  | cons segment rest ih =>
    simp only [follow]
    have hnode := h.node
    generalize here.node = node at hnode
    generalize here'.node = node' at hnode
    cases hnode with
    | file content => exact .error _
    | dir hnodup hnames hentries =>
      dsimp only
      by_cases hidle : Path.isIdle segment = true
      · simp only [hidle, ↓reduceIte]
        exact ih h
      · by_cases hup : segment = ".."
        · simp only [if_neg hidle, if_pos hup]
          exact ih h.up
        · simp only [if_neg hidle, if_neg hup]
          have hnext := h.enter? segment
          generalize here.enter? segment = next at hnext
          generalize here'.enter? segment = next' at hnext
          cases hnext with
          | none => exact .error _
          | some hnext => exact ih hnext

section Reordered

variable (h : fs.Reordered fs')
include h

theorem followFrom_reordered (p : Path) (segments : List String) :
    SameOutcome Position.Reordered (fs.followFrom p segments) (fs'.followFrom p segments) := by
  have hplace : fs.startPlace p = fs'.startPlace p := by
    rw [startPlace, startPlace, h.cwd]
  have hstart := (Position.Reordered.top h.tree).descend? (fs.startPlace p)
  simp only [followFrom, ← hplace]
  generalize (Position.top fs.tree).descend? (fs.startPlace p) = start at hstart
  generalize (Position.top fs'.tree).descend? (fs.startPlace p) = start' at hstart
  cases hstart with
  | none => exact .error _
  | some hstart => exact follow_reordered hstart segments

/-- **A path leads to the same**, but for the order of entries, or fails in the same
way. -/
theorem node?_reordered (p : Path) :
    SameOutcome FileTree.Reordered (fs.node? p) (fs'.node? p) := by
  simp only [node?, position]
  cases refusal? p with
  | some e => exact .error e
  | none =>
    rcases (followFrom_reordered h p p.segments).error_or_ok with
      ⟨e, hleft, hright⟩ | ⟨there, there', hleft, hright, hthere⟩
    · simp only [hleft, hright]
      exact .error e
    · simp only [hleft, hright]
      exact .ok hthere.node

/-! ### Files -/

theorem readText_eq_of_reordered (p : Path) : fs.readText p = fs'.readText p := by
  rcases (node?_reordered h p).error_or_ok with
    ⟨e, hleft, hright⟩ | ⟨node, node', hleft, hright, hnodes⟩
  · exact readText_congr (hleft.trans hright.symm)
  · cases hnodes with
    | file content => exact readText_congr (hleft.trans hright.symm)
    | dir hnodup hnames hentries =>
      rw [readText_of_node?_dir hleft, readText_of_node?_dir hright]

end Reordered

end FileSystem

/-! ### Listings -/

namespace Listing

variable {entries entries' : List (String × FileTree)}

/-- The names that are kept of two lists of entries are sorted alike, as they are
all different. -/
theorem sort_names_eq {keep : String × FileTree → Bool} (hnodup : (entries.map Prod.fst).Nodup)
    (hnames : (entries.map Prod.fst).Perm (entries'.map Prod.fst))
    (hkeep : ∀ name node node', (name, node) ∈ entries → (name, node') ∈ entries' →
      keep (name, node) = keep (name, node')) :
    ((entries.filter keep).map Prod.fst).mergeSort (fun a b => decide (a ≤ b)) =
      ((entries'.filter keep).map Prod.fst).mergeSort fun a b => decide (a ≤ b) := by
  have hkeys : (((entries.filter keep).map Prod.fst).map id).Nodup := by
    rw [List.map_id]
    exact hnodup.sublist (List.filter_sublist.map Prod.fst)
  exact Sorting.sortBy_eq_of_perm hkeys (FileTree.perm_filter_of_names hnames hkeep)

/-- The files of a directory are sorted, so it does not show how they were listed.
-/
theorem ofEntries_eq_of_reordered (extensions : Extensions) (path : Path)
    (h : (FileTree.dir entries).Reordered (.dir entries')) :
    ofEntries extensions path entries = ofEntries extensions path entries' := by
  cases h with
  | dir hnodup hnames hentries =>
    have hkind : ∀ kind, namesOf extensions path kind entries =
        namesOf extensions path kind entries' := by
      intro kind
      refine sort_names_eq hnodup hnames ?_
      intro name node node' hmem hmem'
      rw [(hentries name node node' hmem hmem').isFile_eq]
    simp only [ofEntries, hkind]

/-- A listing sorts its names, and so does not tell in which order the directory
lists its entries. -/
theorem read_eq_of_reordered (h : fs.Reordered fs') (extensions : Extensions) (path : Path) :
    read fs extensions path = read fs' extensions path := by
  simp only [read, FileSystem.readDir]
  rcases (FileSystem.node?_reordered h path).error_or_ok with
    ⟨e, hleft, hright⟩ | ⟨node, node', hleft, hright, hnodes⟩
  · simp only [hleft, hright]
  · simp only [hleft, hright]
    cases hnodes with
    | file content => rfl
    | dir hnodup hnames hentries =>
      have hfiles := ofEntries_eq_of_reordered extensions path (.dir hnodup hnames hentries)
      simp only [Except.map, hfiles]

end Listing

end SolutionTree
