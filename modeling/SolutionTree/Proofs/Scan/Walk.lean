import Mathlib.Data.List.Lex
import Mathlib.Data.String.Basic
import SolutionTree.Proofs.FileTree.WellFormed
import SolutionTree.Proofs.Path.Child
import SolutionTree.Proofs.Sorting
import SolutionTree.Scan

/-!
What a walk comes to.

A walk finds a directory when it keeps the directory and all that it went through on
the way there (`mem_walk_iff`); one that is not kept takes everything below it
along. It comes to the directories in the order of the names that lead to them,
compared one by one, so that what is below a directory follows right after it
(`exists_walksTo`).
-/

namespace SolutionTree

variable {keep : Path → Bool} {path p : Path}

/-! ### One directory -/

/-- The walk goes into each entry by itself, and asks before whether it is kept. -/
theorem walkEntries_eq_map (keep : Path → Bool) (path : Path)
    (entries : List (String × FileTree)) :
    walkEntries keep path entries = entries.map fun entry => (entry.1,
      if keep (path.child entry.1) then walk keep (path.child entry.1) entry.2 else []) := by
  induction entries with
  | nil => rfl
  | cons entry entries ih => rw [walkEntries, ih, List.map_cons]

/-- Entries that are listed by name are walked as they are listed. -/
theorem walk_dir_of_sorted {entries : List (String × FileTree)}
    (h : (entries.map Prod.fst).Pairwise (· ≤ ·)) :
    walk keep path (.dir entries) = path :: (walkEntries keep path entries).flatMap Prod.snd := by
  have hsorted : (walkEntries keep path entries).Pairwise fun a b => decide (a.1 ≤ b.1) = true := by
    rw [walkEntries_eq_map, List.pairwise_map]
    exact (List.pairwise_map.mp h).imp decide_eq_true
  rw [walk, inNameOrder, List.mergeSort_of_pairwise hsorted]

/-- The entries that a walk goes into, in the order in which it does. -/
def enteredEntries (keep : Path → Bool) (path : Path) (entries : List (String × FileTree)) :
    List (String × FileTree) :=
  (entries.mergeSort fun a b => decide (a.1 ≤ b.1)).filter fun entry => keep (path.child entry.1)

theorem mem_enteredEntries {entries : List (String × FileTree)} {entry : String × FileTree} :
    entry ∈ enteredEntries keep path entries ↔
      entry ∈ entries ∧ keep (path.child entry.1) = true := by
  rw [enteredEntries, List.mem_filter, List.mem_mergeSort]

/-- Names of entries are different, and so their order is strict. -/
theorem enteredEntries_increasing {entries : List (String × FileTree)}
    (h : (entries.map Prod.fst).Nodup) :
    (enteredEntries keep path entries).Pairwise fun a b => a.1 < b.1 := by
  have hsorted : (entries.mergeSort fun a b => decide (a.1 ≤ b.1)).Pairwise
      fun a b => a.1 < b.1 := by
    refine Sorting.pairwise_lt_of_nodup (Sorting.pairwise_sortBy Prod.fst entries) ?_
    exact ((List.mergeSort_perm entries _).map Prod.fst).nodup_iff.mpr h
  exact hsorted.sublist List.filter_sublist

/-- A walk of a directory is the directory, and then the walks of its kept entries,
by name. -/
theorem walk_dir_eq_flatMap (entries : List (String × FileTree)) :
    walk keep path (.dir entries) = path :: (enteredEntries keep path entries).flatMap fun entry =>
      walk keep (path.child entry.1) entry.2 := by
  have hsort := List.map_mergeSort (r := fun a b : String × FileTree => decide (a.1 ≤ b.1))
    (s := fun a b : String × List Path => decide (a.1 ≤ b.1)) (l := entries)
    (f := fun entry => (entry.1,
      if keep (path.child entry.1) then walk keep (path.child entry.1) entry.2 else []))
    (fun _ _ _ _ => rfl)
  have hfilter : ∀ l : List (String × FileTree), (l.flatMap fun entry =>
      if keep (path.child entry.1) then walk keep (path.child entry.1) entry.2 else []) =
        (l.filter fun entry => keep (path.child entry.1)).flatMap fun entry =>
          walk keep (path.child entry.1) entry.2 := by
    intro l
    induction l with
    | nil => rfl
    | cons entry l ih =>
      cases hkeep : keep (path.child entry.1) <;> simp [hkeep, ih]
  rw [walk, inNameOrder, walkEntries_eq_map, ← hsort, List.flatMap_map, hfilter, enteredEntries]

/-! ### The whole tree -/

/-- Whether a walk keeps what names lead to and all that is on the way there; the
path that it starts from does not count. -/
def KeepsTo (keep : Path → Bool) (path : Path) (names : List String) : Prop :=
  ∀ above, above ≠ [] → above <+: names → keep (path.under above) = true

theorem keepsTo_nil : KeepsTo keep path [] := by
  intro above hne hpre
  exact absurd (List.prefix_nil.mp hpre) hne

theorem keepsTo_cons_iff {name : String} {names : List String} :
    KeepsTo keep path (name :: names) ↔
      keep (path.child name) = true ∧ KeepsTo keep (path.child name) names := by
  constructor
  · intro h
    refine ⟨h [name] (by simp) (List.cons_prefix_cons.mpr ⟨rfl, List.nil_prefix⟩), ?_⟩
    intro above _ hpre
    exact h (name :: above) (by simp) (List.cons_prefix_cons.mpr ⟨rfl, hpre⟩)
  · rintro ⟨hname, hnames⟩ above hne hpre
    cases above with
    | nil => exact absurd rfl hne
    | cons first above =>
      obtain ⟨rfl, habove'⟩ := List.cons_prefix_cons.mp hpre
      by_cases habove : above = []
      · subst habove
        exact hname
      · exact hnames above habove habove'

/-- The places that a walk comes to, in the order in which it does: a directory
before what is below it, and what is below it by name. -/
structure WalksTo (keep : Path → Bool) (path : Path) (tree : FileTree)
    (places : List (List String)) : Prop where
  paths : walk keep path tree = places.map path.under
  increasing : places.Pairwise (· < ·)
  mem_iff : ∀ names, names ∈ places ↔
    (∃ entries, tree.find? names = some (.dir entries)) ∧ KeepsTo keep path names

/-- The walk of a directory comes to its places in the order that is claimed, if the
walks of its entries do. This is the step of the induction over trees. -/
theorem walksTo_dir {entries : List (String × FileTree)}
    {below : String × FileTree → List (List String)}
    (hwf : (FileTree.dir entries).WellFormed)
    (hbelow : ∀ entry ∈ entries, WalksTo keep (path.child entry.1) entry.2 (below entry)) :
    WalksTo keep path (.dir entries)
      ([] :: (enteredEntries keep path entries).flatMap fun entry =>
        (below entry).map (entry.1 :: ·)) where
  paths := by
    rw [walk_dir_eq_flatMap, List.map_cons, List.map_flatMap, Path.under_nil]
    congr 1
    refine List.flatMap_congr fun entry hentry => ?_
    rw [(hbelow entry (mem_enteredEntries.mp hentry).1).paths, List.map_map]
    rfl
  increasing := by
    have hnodup : (entries.map Prod.fst).Nodup := by
      cases hwf with
      | dir hnodup hplain hentries => exact hnodup
    rw [List.pairwise_cons, List.pairwise_flatMap]
    refine ⟨?_, ?_, ?_⟩
    · simp only [List.mem_flatMap, List.mem_map]
      rintro _ ⟨entry, -, names, -, rfl⟩
      exact List.nil_lt_cons _ _
    · intro entry hentry
      have hinc := (hbelow entry (mem_enteredEntries.mp hentry).1).increasing
      exact List.pairwise_map.mpr (hinc.imp fun hlt => .cons hlt)
    · refine (enteredEntries_increasing hnodup).imp fun hlt => ?_
      simp only [List.mem_map]
      rintro _ ⟨names, -, rfl⟩ _ ⟨names', -, rfl⟩
      exact .rel hlt
  mem_iff := by
    intro names
    cases names with
    | nil => simp [keepsTo_nil]
    | cons name names =>
      simp only [List.mem_cons, reduceCtorEq, false_or, List.mem_flatMap, mem_enteredEntries,
        List.mem_map, List.cons.injEq, hwf.find?_cons_iff, keepsTo_cons_iff]
      constructor
      · rintro ⟨entry, ⟨hentry, hkeep⟩, _, hnames, rfl, rfl⟩
        obtain ⟨⟨inner, hfind⟩, hkeeps⟩ := ((hbelow entry hentry).mem_iff _).mp hnames
        exact ⟨⟨inner, entry.2, hentry, hfind⟩, hkeep, hkeeps⟩
      · rintro ⟨⟨inner, next, hentry, hfind⟩, hkeep, hkeeps⟩
        exact ⟨(name, next), ⟨hentry, hkeep⟩, names,
          ((hbelow _ hentry).mem_iff names).mpr ⟨⟨inner, hfind⟩, hkeeps⟩, rfl, rfl⟩

/-- **A walk goes by components.** The induction is over the tree; at each directory
the walks of its entries stand behind one another by name. -/
theorem exists_walksTo {tree : FileTree} (h : tree.WellFormed) (keep : Path → Bool) (path : Path) :
    ∃ places, WalksTo keep path tree places := by
  induction h generalizing path with
  | file content =>
    refine ⟨[], by simp [walk], by simp, ?_⟩
    rintro (_ | ⟨name, names⟩) <;> simp
  | dir hnodup hplain hentries ih =>
    choose! below hbelow using fun entry hentry => ih entry hentry (path.child entry.1)
    exact ⟨_, walksTo_dir (.dir hnodup hplain hentries) hbelow⟩

/-- **What a walk finds**: the directories of the tree that it keeps all the way
down to. -/
theorem mem_walk_iff {tree : FileTree} (h : tree.WellFormed) :
    p ∈ walk keep path tree ↔ ∃ names entries, tree.find? names = some (.dir entries) ∧
      KeepsTo keep path names ∧ p = path.under names := by
  obtain ⟨places, hplaces⟩ := exists_walksTo h keep path
  rw [hplaces.paths, List.mem_map]
  constructor
  · rintro ⟨names, hnames, rfl⟩
    obtain ⟨⟨entries, hfind⟩, hkeep⟩ := (hplaces.mem_iff names).mp hnames
    exact ⟨names, entries, hfind, hkeep, rfl⟩
  · rintro ⟨names, entries, hfind, hkeep, rfl⟩
    exact ⟨names, (hplaces.mem_iff names).mpr ⟨⟨entries, hfind⟩, hkeep⟩, rfl⟩

end SolutionTree
