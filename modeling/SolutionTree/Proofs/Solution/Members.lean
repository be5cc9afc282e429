import SolutionTree.Proofs.References

/-!
The members of a solution.

A solution has the members that its targets become (`mem_members_iff`), each with a
name and a file name of its own (`nodup_names`, `nodup_fileNames`). Whatever it
refers to is one of them: the main target, which is never a runnable
(`exists_member_of_main`), and the target of each reference
(`exists_member_of_reference`).
-/

namespace SolutionTree

/-- Different names make different file names. -/
theorem Catalog.nodup_fileNames (c : Catalog) (extension : String) :
    (c.targets.map fun t => t.fileName extension).Nodup := by
  refine List.pairwise_map.mpr ((List.pairwise_map.mp c.distinct).imp ?_)
  intro a b hne heq
  rw [Target.fileName, Target.fileName, String.append_left_inj, String.append_left_inj] at heq
  exact hne heq

/-- The only executable, if there is one, is an executable of the catalog. -/
theorem Catalog.onlyExecutable?_eq_some_iff {c : Catalog} {t : Target} :
    c.onlyExecutable? = some t ↔ c.targets.filter (fun u => u.kind = .executable) = [t] := by
  unfold onlyExecutable?
  split
  next u hu => rw [hu, Option.some.injEq, List.cons.injEq, and_iff_left rfl]
  next hne =>
    constructor
    · intro h
      contradiction
    · intro h
      exact absurd h (hne t)

/-- A main target that is picked is in the catalog, and no runnable, whether it was
asked for or is the only executable. -/
theorem Catalog.exists_target_of_selectMain {c : Catalog} {wanted : Option String} {name : String}
    (h : c.selectMain wanted = .ok (some name)) :
    ∃ t ∈ c.targets, t.name = name ∧ t.kind.isRunnable = false := by
  unfold selectMain at h
  split at h
  next =>
    obtain ⟨t, ht, rfl⟩ := Option.map_eq_some_iff.mp (Except.ok.inj h)
    have hmem : t ∈ c.targets.filter fun u => u.kind = .executable := by
      rw [onlyExecutable?_eq_some_iff.mp ht]
      exact List.mem_singleton_self t
    obtain ⟨hc, hkind⟩ := List.mem_filter.mp hmem
    refine ⟨t, hc, rfl, ?_⟩
    rw [of_decide_eq_true hkind]
    rfl
  next asked hasked =>
    split at h
    next t ht =>
      split at h
      next => contradiction
      next hkind =>
        obtain rfl := Option.some.inj (Except.ok.inj h)
        obtain ⟨hc, hname⟩ := find?_eq_some_iff.mp ht
        exact ⟨t, hc, hname, by simpa using hkind⟩
    next => contradiction

namespace Solution

variable {c : Catalog} {d : Dependencies} {options : SolutionOptions} {s : Solution}

/-- Assembling fails only when a main target is asked for that cannot be picked.
What is assembled is then sorted, and nothing is dropped. -/
theorem assemble_eq_ok_iff : assemble c d options = .ok s ↔
    ∃ main, c.selectMain options.main = .ok main ∧
      s = ⟨options.name, main,
        (c.targets.map (Member.ofTarget c.identifiers d options.extension)).mergeSort
          (Member.inOrder main)⟩ := by
  unfold assemble
  cases c.selectMain options.main with
  | error fault => simp
  | ok main => simp [eq_comm]

theorem find?_eq_none_iff {name : String} :
    s.find? name = none ↔ ∀ m ∈ s.members, m.target.name ≠ name := by
  simp [find?]

section Assembled

variable (h : assemble c d options = .ok s)
include h

/-- The members of a solution are those that its targets become. -/
theorem mem_members_iff {m : Member} :
    m ∈ s.members ↔ ∃ t ∈ c.targets, Member.ofTarget c.identifiers d options.extension t = m := by
  rw [(members_assemble_perm h).mem_iff, List.mem_map]

theorem targets_perm : (s.members.map Member.target).Perm c.targets := by
  have hperm := (members_assemble_perm h).map Member.target
  rw [List.map_map] at hperm
  simpa [Function.comp_def, Member.ofTarget] using hperm

theorem size_eq : s.size = c.size := by
  rw [size, ← List.length_map Member.target, (targets_perm h).length_eq, Catalog.size_eq_length]

theorem nodup_names : (s.members.map fun m => m.target.name).Nodup := by
  have hperm := (targets_perm h).map Target.name
  rw [List.map_map] at hperm
  exact hperm.nodup_iff.mpr c.distinct

theorem fileName_eq {m : Member} (hm : m ∈ s.members) :
    m.fileName = m.target.name ++ "." ++ options.extension := by
  obtain ⟨t, -, rfl⟩ := (mem_members_iff h).mp hm
  rfl

/-- File names are names with one extension behind them, and therefore different. -/
theorem nodup_fileNames : (s.members.map Member.fileName).Nodup := by
  have hperm := (members_assemble_perm h).map Member.fileName
  rw [List.map_map] at hperm
  exact hperm.nodup_iff.mpr (c.nodup_fileNames options.extension)

/-- The member of a name is the one that has it: the first one is the only one. -/
theorem find?_eq_some_iff {name : String} {m : Member} :
    s.find? name = some m ↔ m ∈ s.members ∧ m.target.name = name :=
  Association.find?_key_eq_some_iff (nodup_names h)

theorem exists_member_of_main {name : String} (hmain : s.main = some name) :
    ∃ m ∈ s.members, m.target.name = name ∧ m.target.kind.isRunnable = false := by
  obtain ⟨main, hselect, heq⟩ := assemble_eq_ok_iff.mp h
  have hname : main = some name := by
    rw [← hmain, heq]
  rw [hname] at hselect
  obtain ⟨t, ht, hkind⟩ := Catalog.exists_target_of_selectMain hselect
  exact ⟨_, (mem_members_iff h).mpr ⟨t, ht, rfl⟩, hkind⟩

/-- A reference is to a member: only names that have an identifier become
references, and those are names of targets. -/
theorem exists_member_of_reference {m : Member} (hm : m ∈ s.members) {r : Reference}
    (hr : r ∈ m.references) : ∃ n ∈ s.members, n.target.reference = r := by
  obtain ⟨t, -, rfl⟩ := (mem_members_iff h).mp hm
  obtain ⟨name, -, hfound⟩ := List.mem_filterMap.mp hr
  rw [Catalog.reference_of_identifiers] at hfound
  obtain ⟨u, hu, rfl⟩ := Option.map_eq_some_iff.mp hfound
  exact ⟨_, (mem_members_iff h).mpr ⟨u, (Catalog.find?_eq_some_iff.mp hu).1, rfl⟩, rfl⟩

end Assembled

end Solution

end SolutionTree
