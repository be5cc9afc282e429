import Mathlib.Data.Prod.Lex
import Mathlib.Data.String.Basic
import SolutionTree.Proofs.Solution.Members
import SolutionTree.Proofs.Sorting
import SolutionTree.Proofs.Text.Bytes

/-!
The order of a solution, and that it is the only one.

Members are sorted by their group and then by their file names, of which no two are
equal, so that the members fall into the main target, libraries and executables, and
runnables, the latter two in strictly increasing order (`grouped_of_assemble`). What
a catalog finds, what its targets depend on and which target is the main one do not
hang on the order in which targets were added (`find?_perm`, `ofCatalog_perm`,
`selectMain_perm`), and then neither does the solution
(`assemble_ofTargets_of_perm`).
-/

namespace SolutionTree

/-! ### Adding targets -/

/-- The catalog of some targets, added one after another. -/
def Catalog.ofTargets (targets : List Target) : Except Fault Catalog :=
  targets.foldlM insert empty

/-- Targets of different names are all accepted, in their order. -/
theorem Catalog.exists_foldlM_insert {targets : List Target} {c : Catalog}
    (h : (c.names ++ targets.map Target.name).Nodup) :
    ∃ c', targets.foldlM insert c = .ok c' ∧ c'.targets = c.targets ++ targets := by
  induction targets generalizing c with
  | nil => exact ⟨c, rfl, (List.append_nil _).symm⟩
  | cons t targets ih =>
    obtain ⟨next, hinsert, htargets, hnames⟩ := exists_insert_of_nodup h
    obtain ⟨c', hc', htargets'⟩ := ih hnames
    refine ⟨c', ?_, by rw [htargets', htargets, List.append_assoc, List.singleton_append]⟩
    rw [List.foldlM_cons, hinsert]
    exact hc'

/-- Targets of different names all get into a catalog. -/
theorem Catalog.exists_ofTargets {targets : List Target}
    (h : (targets.map Target.name).Nodup) :
    ∃ c, ofTargets targets = .ok c ∧ c.targets = targets :=
  exists_foldlM_insert (c := empty) h

/-! ### Catalogs of the same targets -/

namespace Catalog

variable {c c' : Catalog} (hperm : c.targets.Perm c'.targets)
include hperm

/-- The first target of a name is the only one, so that it does not count in which
order the targets stand. -/
theorem find?_perm (name : String) : c.find? name = c'.find? name := by
  apply Option.ext
  intro t
  rw [find?_eq_some_iff, find?_eq_some_iff, hperm.mem_iff]

/-- Whether there is exactly one executable, and which it is, does not depend on the
order. -/
theorem onlyExecutable?_perm : c.onlyExecutable? = c'.onlyExecutable? := by
  have hfilter := hperm.filter fun u : Target => u.kind = .executable
  apply Option.ext
  intro t
  rw [onlyExecutable?_eq_some_iff, onlyExecutable?_eq_some_iff, ← List.perm_singleton,
    ← List.perm_singleton]
  exact ⟨hfilter.symm.trans, hfilter.trans⟩

theorem selectMain_perm (wanted : Option String) : c.selectMain wanted = c'.selectMain wanted := by
  unfold selectMain
  cases wanted.filter (· ≠ "") with
  | none => rw [onlyExecutable?_perm hperm]
  | some name =>
    dsimp only
    rw [find?_perm hperm]

section Directories

variable (hdirs : c.directories.Nodup)
include hdirs

theorem findDir?_perm (relativeDir : String) :
    c.findDir? relativeDir = c'.findDir? relativeDir := by
  have hdirs' : c'.directories.Nodup := (hperm.map Target.relativeDir).nodup_iff.mp hdirs
  apply Option.ext
  intro t
  rw [findDir?_eq_some_iff hdirs, findDir?_eq_some_iff hdirs', hperm.mem_iff]

/-- A name is canonical by look-ups alone, none of which depends on the order. -/
theorem canonicalName_perm (declaringDir name : String) :
    c.canonicalName declaringDir name = c'.canonicalName declaringDir name := by
  simp only [canonicalName, resolve?, find?_perm hperm, findDir?_perm hperm hdirs]

theorem dependenciesOf_perm (t : Target) : c.dependenciesOf t = c'.dependenciesOf t := by
  have hcanonical : c.canonicalName = c'.canonicalName := by
    funext declaringDir name
    exact canonicalName_perm hperm hdirs declaringDir name
  rw [dependenciesOf, dependenciesOf, hcanonical]

/-- Catalogs of the same targets have the same dependencies, in the same order: they
are listed by names. -/
theorem ofCatalog_perm : Dependencies.ofCatalog c = Dependencies.ofCatalog c' := by
  have hedges : (c.targets.map fun t => (t.name, c.dependenciesOf t)).Perm
      (c'.targets.map fun t => (t.name, c'.dependenciesOf t)) := by
    simp only [dependenciesOf_perm hperm hdirs]
    exact hperm.map _
  have hkeys : ((c.targets.map fun t => (t.name, c.dependenciesOf t)).map Prod.fst).Nodup := by
    rw [List.map_map]
    exact c.distinct
  exact congrArg Dependencies.mk (Sorting.sortBy_eq_of_perm hkeys hedges)

end Directories

end Catalog

/-! ### The order of members -/

namespace Member

/-- What members are sorted by: the group, then the file name. -/
def emissionKey (main : Option String) (m : Member) : Nat ×ₗ String :=
  toLex (m.rank main, m.fileName)

/-- Members are ordered by a key, so that ties are broken by the sort only among
members that have the same file name. -/
theorem inOrder_iff (main : Option String) (a b : Member) :
    inOrder main a b = true ↔ a.emissionKey main ≤ b.emissionKey main := by
  rw [inOrder, order, emissionKey, emissionKey, Prod.Lex.toLex_le_toLex]
  rcases Nat.lt_trichotomy (a.rank main) (b.rank main) with hlt | heq | hgt
  · simp [Nat.compare_eq_lt.mpr hlt, hlt]
  · simpa [heq] using compare_le_iff_le
  · simp [Nat.compare_eq_gt.mpr hgt, hgt.le, hgt.ne']

theorem inOrder_eq (main : Option String) :
    inOrder main = fun a b => decide (a.emissionKey main ≤ b.emissionKey main) := by
  funext a b
  exact Bool.eq_iff_iff.mpr ((inOrder_iff main a b).trans decide_eq_true_iff.symm)

/-- Members of different file names differ in what they are sorted by, and so are
sorted in one way only. -/
theorem nodup_emissionKeys (main : Option String) {members : List Member}
    (h : (members.map fileName).Nodup) : (members.map (emissionKey main)).Nodup := by
  refine List.Nodup.of_map (fun k => (ofLex k).2) ?_
  rwa [List.map_map]

variable {main : Option String} {m : Member}

/-- The first group is that of the main target. -/
theorem rank_eq_zero_iff : m.rank main = 0 ↔ main = some m.target.name := by
  unfold rank
  split_ifs with hmain hrun <;> simp [hmain]

theorem isRunnable_of_rank_eq_one (h : m.rank main = 1) : m.target.kind.isRunnable = false := by
  unfold rank at h
  grind

theorem isRunnable_of_rank_eq_two (h : m.rank main = 2) : m.target.kind.isRunnable = true := by
  unfold rank at h
  grind

theorem rank_lt_three : m.rank main < 3 := by
  unfold rank
  split_ifs <;> decide

end Member

/-! ### Solutions -/

/-- A solution whose members stand in three groups: the main target, then the other
libraries and executables, then tests and scripts, both by file name. -/
structure Solution.Grouped (s : Solution) (first built run : List Member) : Prop where
  members_eq : s.members = first ++ built ++ run
  first_names : first.map (fun m => m.target.name) = s.main.toList
  first_kind : ∀ m ∈ first, m.target.kind = .library ∨ m.target.kind = .executable
  built_kind : ∀ m ∈ built, m.target.kind = .library ∨ m.target.kind = .executable
  run_kind : ∀ m ∈ run, m.target.kind = .test ∨ m.target.kind = .script
  built_increasing : built.Pairwise fun a b => Text.bytes a.fileName < Text.bytes b.fileName
  run_increasing : run.Pairwise fun a b => Text.bytes a.fileName < Text.bytes b.fileName

namespace Solution

/-- The members of one rank. -/
def group (s : Solution) (rank : Nat) : List Member :=
  s.members.filter fun m => m.rank s.main = rank

theorem mem_group_iff {s : Solution} {rank : Nat} {m : Member} :
    m ∈ s.group rank ↔ m ∈ s.members ∧ m.rank s.main = rank := by
  rw [group, List.mem_filter, decide_eq_true_eq]

theorem group_sublist (s : Solution) (rank : Nat) : (s.group rank).Sublist s.members :=
  List.filter_sublist

section Assembled

variable {c : Catalog} {d : Dependencies} {options : SolutionOptions} {s : Solution}
variable (h : assemble c d options = .ok s)
include h

theorem pairwise_emissionKey : s.members.Pairwise fun a b =>
    a.emissionKey s.main ≤ b.emissionKey s.main := by
  obtain ⟨main, -, rfl⟩ := assemble_eq_ok_iff.mp h
  simp only [Member.inOrder_eq]
  exact Sorting.pairwise_sortBy _ _

/-- Members of one group have strictly increasing file names. -/
theorem pairwise_fileName_group (rank : Nat) : (s.group rank).Pairwise fun a b =>
    Text.bytes a.fileName < Text.bytes b.fileName := by
  have hkeys := Member.nodup_emissionKeys s.main (nodup_fileNames h)
  have hlt := (Sorting.pairwise_lt_of_nodup (pairwise_emissionKey h) hkeys).sublist
    (s.group_sublist rank)
  refine hlt.imp_of_mem ?_
  intro a b ha hb hab
  rw [Member.emissionKey, Member.emissionKey, (mem_group_iff.mp ha).2, (mem_group_iff.mp hb).2,
    Prod.Lex.toLex_lt_toLex] at hab
  rcases hab with hab | ⟨-, hab⟩
  · exact absurd hab (Nat.lt_irrefl _)
  · exact Text.bytes_lt_bytes_iff.mpr hab

/-- **Members are written out in three groups.** They are sorted by group first, and
there are no more than three groups. -/
theorem members_eq_groups : s.members = s.group 0 ++ s.group 1 ++ s.group 2 := by
  have hsorted := (pairwise_emissionKey h).imp fun hle => Prod.Lex.monotone_fst _ _ hle
  have hgroups : s.members = (List.range 3).flatMap s.group :=
    Sorting.eq_flatMap_range_filter (fun _ _ => Member.rank_lt_three) hsorted
  rw [List.append_assoc]
  simpa [List.range_succ] using hgroups

/-- The first group is the main target, if there is one, since names are different.
-/
theorem map_name_group_zero : (s.group 0).map (fun m => m.target.name) = s.main.toList := by
  have hmem : ∀ name,
      name ∈ (s.group 0).map (fun m => m.target.name) ↔ name ∈ s.main.toList := by
    intro name
    simp only [List.mem_map, mem_group_iff, Member.rank_eq_zero_iff, Option.mem_toList]
    constructor
    · rintro ⟨m, ⟨-, hmain⟩, rfl⟩
      exact hmain
    · intro hmain
      obtain ⟨m, hm, rfl, -⟩ := exists_member_of_main h hmain
      exact ⟨m, ⟨hm, hmain⟩, rfl⟩
  have hnodup := ((s.group_sublist 0).map fun m => m.target.name).nodup (nodup_names h)
  have hmain : s.main.toList.Nodup := by
    cases s.main <;> simp
  have hperm := (List.perm_ext_iff_of_nodup hnodup hmain).mpr hmem
  cases hname : s.main with
  | none =>
    rw [hname] at hperm
    exact List.perm_nil.mp hperm
  | some name =>
    rw [hname] at hperm
    exact List.perm_singleton.mp hperm

/-- The main target is none of the runnables, which cannot be picked. -/
theorem isRunnable_of_mem_group_zero {m : Member} (hm : m ∈ s.group 0) :
    m.target.kind.isRunnable = false := by
  obtain ⟨hmem, hrank⟩ := mem_group_iff.mp hm
  obtain ⟨n, hn, hname, hkind⟩ :=
    exists_member_of_main h (Member.rank_eq_zero_iff.mp hrank)
  rwa [← List.inj_on_of_nodup_map (nodup_names h) hn hmem hname]

/-- **The main target stands first, then what is built, then what is run.** The
groups are the ranks of the sort, and each is sorted by file names. -/
theorem grouped_of_assemble : s.Grouped (s.group 0) (s.group 1) (s.group 2) where
  members_eq := members_eq_groups h
  first_names := map_name_group_zero h
  first_kind _ hm := Target.Kind.isRunnable_eq_false_iff.mp (isRunnable_of_mem_group_zero h hm)
  built_kind _ hm := Target.Kind.isRunnable_eq_false_iff.mp
    (Member.isRunnable_of_rank_eq_one (mem_group_iff.mp hm).2)
  run_kind _ hm := Target.Kind.isRunnable_eq_true_iff.mp
    (Member.isRunnable_of_rank_eq_two (mem_group_iff.mp hm).2)
  built_increasing := pairwise_fileName_group h 1
  run_increasing := pairwise_fileName_group h 2

end Assembled

variable {c c' : Catalog} {options : SolutionOptions}

/-- **What is assembled does not tell in which order targets were added.** All
look-ups find the same, members are the same up to order, and no two members are
sorted by the same key. -/
theorem assemble_of_perm (hperm : c.targets.Perm c'.targets) (hdirs : c.directories.Nodup) :
    assemble c (.ofCatalog c) options = assemble c' (.ofCatalog c') options := by
  unfold assemble
  rw [Catalog.selectMain_perm hperm, Catalog.ofCatalog_perm hperm hdirs]
  cases c'.selectMain options.main with
  | error fault => rfl
  | ok main =>
    have hmember : Member.ofTarget c.identifiers (.ofCatalog c') options.extension =
        Member.ofTarget c'.identifiers (.ofCatalog c') options.extension := by
      funext t
      simp only [Member.ofTarget, Catalog.identifiers_get?, Catalog.find?_perm hperm]
    have hfiles :
        ((c.targets.map (Member.ofTarget c'.identifiers (.ofCatalog c') options.extension)).map
        Member.fileName).Nodup := by
      rw [List.map_map]
      exact c.nodup_fileNames options.extension
    have hkeys := Member.nodup_emissionKeys main hfiles
    simp only [hmember, Member.inOrder_eq]
    rw [Sorting.sortBy_eq_of_perm hkeys (hperm.map _)]

/-- **What a solution is does not hang on the order in which targets are added**:
targets of different names and directories make one solution, or one fault, in
whatever order they come. The solution has them all, each with its file name, and
they stand in three groups. -/
theorem assemble_ofTargets_of_perm {targets targets' : List Target}
    (hnames : (targets.map Target.name).Nodup) (hdirs : (targets.map Target.relativeDir).Nodup)
    (hperm : targets.Perm targets') (options : SolutionOptions) :
    ∃ c c', Catalog.ofTargets targets = .ok c ∧ Catalog.ofTargets targets' = .ok c' ∧
      assemble c (.ofCatalog c) options = assemble c' (.ofCatalog c') options ∧
      ∀ s, assemble c (.ofCatalog c) options = .ok s →
        (s.members.map Member.target).Perm targets ∧
        (∀ m ∈ s.members, m.fileName = m.target.name ++ "." ++ options.extension) ∧
        ∃ first built run, s.Grouped first built run := by
  have hnames' : (targets'.map Target.name).Nodup := (hperm.map Target.name).nodup_iff.mp hnames
  obtain ⟨c, hc, rfl⟩ := Catalog.exists_ofTargets hnames
  obtain ⟨c', hc', rfl⟩ := Catalog.exists_ofTargets hnames'
  refine ⟨c, c', hc, hc', assemble_of_perm hperm hdirs, fun s hs => ?_⟩
  exact ⟨targets_perm hs, fun m hm => fileName_eq hs hm, _, _, _, grouped_of_assemble hs⟩

/-- Two libraries, the first of them the main target, an executable with a test and
a script. -/
def mainAndOthers : Catalog :=
  Catalog.empty.offers [.bare .library "util" "util" [] none,
    .bare .executable "app" "app" ["util"] none, .bare .library "lib_a" "lib_a" ["util"] none,
    .bare .script "app_script" "app/script" [] (some ⟨"app", "app", ["util"]⟩),
    .bare .test "app_test" "app/test" [] (some ⟨"app", "app", ["util"]⟩)]

theorem assemble_mainAndOthers : ∃ s,
    assemble mainAndOthers (.ofCatalog mainAndOthers) { main := some "util" } = .ok s ∧
      s.members.map Member.target = mainAndOthers.targets := by
  have hmain : mainAndOthers.selectMain (some "util") = .ok (some "util") := by decide +kernel
  have hsorted : (mainAndOthers.targets.map (Member.ofTarget mainAndOthers.identifiers
      (.ofCatalog mainAndOthers) "vcxproj")).Pairwise
        fun a b => Member.inOrder (some "util") a b = true := by
    decide +kernel
  refine ⟨_, assemble_eq_ok_iff.mpr ⟨_, hmain, rfl⟩, ?_⟩
  rw [List.mergeSort_of_pairwise hsorted]
  rfl

/-- Added in this order or in the opposite one, the five targets make the same
solution. -/
theorem assemble_ofTargets_of_perm_mainAndOthers :
    (mainAndOthers.targets.map Target.name).Nodup ∧
      (mainAndOthers.targets.map Target.relativeDir).Nodup ∧
      mainAndOthers.targets.Perm mainAndOthers.targets.reverse ∧
      ∃ c c' s, Catalog.ofTargets mainAndOthers.targets = .ok c ∧
        Catalog.ofTargets mainAndOthers.targets.reverse = .ok c' ∧
        assemble c (.ofCatalog c) { main := some "util" } = .ok s ∧
        assemble c' (.ofCatalog c') { main := some "util" } = .ok s ∧
        s.members.map Member.target = mainAndOthers.targets ∧
        ∃ first built run, s.Grouped first built run := by
  have hdirs : (mainAndOthers.targets.map Target.relativeDir).Nodup := by decide
  have hperm := (List.reverse_perm mainAndOthers.targets).symm
  obtain ⟨c, c', hc, hc', heq, hall⟩ := assemble_ofTargets_of_perm mainAndOthers.distinct hdirs
    hperm { main := some "util" }
  have hcatalog : Catalog.ofTargets mainAndOthers.targets = .ok mainAndOthers := rfl
  obtain rfl := Except.ok.inj (hcatalog.symm.trans hc)
  obtain ⟨s, hs, htargets⟩ := assemble_mainAndOthers
  exact ⟨mainAndOthers.distinct, hdirs, hperm, _, c', s, hc, hc', hs, heq ▸ hs, htargets,
    (hall s hs).2.2⟩

end Solution

end SolutionTree
