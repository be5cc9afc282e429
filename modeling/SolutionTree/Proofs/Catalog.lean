import SolutionTree.Catalog
import SolutionTree.Proofs.Association

/-!
What a catalog finds.

A name is found exactly when a target has it, and that target is found
(`find?_eq_some_iff`). The same holds of directories as long as no two targets share
one (`findDir?_eq_some_iff`). A target of a free name is added (`insert_of_free`),
and one of a name that is taken is refused (`insert_of_taken`).
-/

namespace SolutionTree.Catalog

variable {c : Catalog}

def directories (c : Catalog) : List String :=
  c.targets.map Target.relativeDir

/-- A name is in the list of names when it is that of a target. -/
theorem mem_names_iff {name : String} : name ∈ c.names ↔ ∃ t ∈ c.targets, t.name = name :=
  List.mem_map

/-! ### Positions -/

/-- A name has the position of the target that is called so. Names are different, so
that there is one at most. -/
theorem byName_iff {name : String} {i : Nat} :
    c.raw.byName.get? name = some i ↔ ∃ t, c.targets[i]? = some t ∧ t.name = name :=
  c.inStep.byName_iff name i

/-- A name has no position exactly when no target has it. -/
theorem byName_eq_none_iff {name : String} :
    c.raw.byName.get? name = none ↔ name ∉ c.names := by
  rw [mem_names_iff, Option.eq_none_iff_forall_ne_some]
  constructor
  · rintro h ⟨t, ht, hname⟩
    obtain ⟨i, hi⟩ := List.mem_iff_getElem?.mp ht
    exact h i (byName_iff.mpr ⟨t, hi, hname⟩)
  · intro h i hi
    obtain ⟨t, ht, hname⟩ := byName_iff.mp hi
    exact h ⟨t, List.mem_of_getElem? ht, hname⟩

/-- **No two targets of a catalog have one name**: the dictionary would have two
positions for it. -/
theorem distinct (c : Catalog) : (c.targets.map Target.name).Nodup := by
  rw [List.nodup_iff_injective_getElem]
  rintro ⟨i, hi⟩ ⟨j, hj⟩ heq
  rw [List.length_map] at hi hj
  have hget : ∀ k (hk : k < c.targets.length),
      c.raw.byName.get? c.targets[k].name = some k := fun k hk =>
    byName_iff.mpr ⟨_, List.getElem?_eq_getElem hk, rfl⟩
  have hname : c.targets[i].name = c.targets[j].name := by simpa using heq
  exact Fin.ext (Option.some.inj ((hget i hi).symm.trans (hname ▸ hget j hj)))

/-- The target of a name is found through the dictionary of names, and it is the one
in the list that is called so: names are not given twice. -/
theorem find?_eq_some_iff {name : String} {t : Target} :
    c.find? name = some t ↔ t ∈ c.targets ∧ t.name = name := by
  rw [find?, Raw.find?, Option.bind_eq_some_iff]
  constructor
  · rintro ⟨i, hi, ht⟩
    obtain ⟨u, hu, hname⟩ := byName_iff.mp hi
    obtain rfl := Option.some.inj (ht.symm.trans hu)
    exact ⟨List.mem_of_getElem? ht, hname⟩
  · rintro ⟨ht, hname⟩
    obtain ⟨i, hi⟩ := List.mem_iff_getElem?.mp ht
    exact ⟨i, byName_iff.mpr ⟨t, hi, hname⟩, hi⟩

theorem find?_eq_none_iff {name : String} : c.find? name = none ↔ name ∉ c.names := by
  rw [Option.eq_none_iff_forall_ne_some, mem_names_iff]
  simp only [ne_eq, find?_eq_some_iff, not_exists]

theorem contains_iff {name : String} :
    c.contains name = true ↔ ∃ t ∈ c.targets, t.name = name := by
  rw [contains, Raw.contains, Dictionary.contains, ← mem_names_iff, ← not_iff_not,
    Bool.not_eq_true, Option.isSome_eq_false_iff, Option.isNone_iff_eq_none, byName_eq_none_iff]

/-- Of the targets in a directory, the last one is found: each insertion overwrites
the position of its directory. -/
theorem findDir?_eq_some_iff_last {relativeDir : String} {t : Target} :
    c.findDir? relativeDir = some t ↔
      ∃ before behind, c.targets = before ++ t :: behind ∧ t.relativeDir = relativeDir ∧
        ∀ u ∈ behind, u.relativeDir ≠ relativeDir := by
  rw [findDir?, Raw.findDir?, Option.bind_eq_some_iff]
  constructor
  · rintro ⟨i, hi, ht⟩
    obtain ⟨⟨u, hu, hdir⟩, hlast⟩ := (c.inStep.byDirectory_iff relativeDir i).mp hi
    obtain rfl := Option.some.inj (ht.symm.trans hu)
    have hget : c.targets[i]? = some t := ht
    obtain ⟨hlt, rfl⟩ := List.getElem?_eq_some_iff.mp hget
    refine ⟨c.targets.take i, c.targets.drop (i + 1), ?_, hdir, ?_⟩
    · rw [List.getElem_cons_drop, List.take_append_drop]
    · intro u hu
      obtain ⟨k, hk⟩ := List.mem_iff_getElem?.mp hu
      rw [List.getElem?_drop] at hk
      exact hlast (i + 1 + k) u (by omega) hk
  · rintro ⟨before, behind, htargets, hdir, hbehind⟩
    have hget : c.raw.targets[before.length]? = some t := by
      rw [← targets, htargets]
      simp
    refine ⟨before.length, (c.inStep.byDirectory_iff relativeDir _).mpr ⟨⟨t, hget, hdir⟩, ?_⟩, hget⟩
    intro j u hj hu
    obtain ⟨k, rfl⟩ := Nat.exists_eq_add_of_lt hj
    rw [← targets, htargets] at hu
    have hmem : behind[k]? = some u := by
      simpa [List.getElem?_append_right, Nat.add_assoc] using hu
    exact hbehind u (List.mem_of_getElem? hmem)

/-! ### The list alone -/

/-- **The dictionary of names finds what a search of the list finds.** Whatever is
said of a search holds of the look-up, and the two may be taken for each other. -/
theorem find?_eq (c : Catalog) (name : String) :
    c.find? name = c.targets.find? fun t => t.name = name := by
  apply Option.ext
  intro t
  rw [find?_eq_some_iff, Association.find?_key_eq_some_iff c.distinct]

/-- **The dictionary of directories finds what a search of the list from its end
finds.** -/
theorem findDir?_eq (c : Catalog) (relativeDir : String) :
    c.findDir? relativeDir = c.targets.reverse.find? fun t => t.relativeDir = relativeDir := by
  apply Option.ext
  intro t
  rw [findDir?_eq_some_iff_last, List.find?_eq_some_iff_append]
  simp only [decide_eq_true_eq, Bool.not_eq_true', decide_eq_false_iff_not]
  constructor
  · rintro ⟨before, behind, htargets, hdir, hbehind⟩
    refine ⟨hdir, behind.reverse, before.reverse, ?_, ?_⟩
    · simp [htargets]
    · simpa using hbehind
  · rintro ⟨hdir, front, back, hreverse, hfront⟩
    refine ⟨back.reverse, front.reverse, ?_, hdir, ?_⟩
    · rw [← List.reverse_inj, hreverse]
      simp
    · simpa using hfront

theorem mem_of_findDir? {relativeDir : String} {t : Target} (h : c.findDir? relativeDir = some t) :
    t ∈ c.targets := by
  obtain ⟨before, behind, htargets, -, -⟩ := findDir?_eq_some_iff_last.mp h
  simp [htargets]

/-- A directory is not found exactly when no target stands in it. -/
theorem findDir?_eq_none_iff {relativeDir : String} :
    c.findDir? relativeDir = none ↔ ∀ t ∈ c.targets, t.relativeDir ≠ relativeDir := by
  simp [findDir?_eq]

/-- When no two targets share a directory, the last one in a directory is the one.
-/
theorem findDir?_eq_some_iff (hdirs : c.directories.Nodup) {relativeDir : String} {t : Target} :
    c.findDir? relativeDir = some t ↔ t ∈ c.targets ∧ t.relativeDir = relativeDir := by
  have hrev : (c.targets.reverse.map Target.relativeDir).Nodup := by
    rw [List.map_reverse]
    exact List.nodup_reverse.mpr hdirs
  rw [findDir?_eq, Association.find?_key_eq_some_iff hrev, List.mem_reverse]

/-! ### Insertion -/

/-- **A call** writes its target to the list and to both dictionaries, or is refused
and writes nothing. Which of the two it does is told by the names of the targets
that are held. -/
theorem Raw.insert_cases {r : Raw} (h : r.InStep) (t : Target) :
    ((∀ u ∈ r.targets, u.name ≠ t.name) ∧ r.insert t = (.ok (), r.push t)) ∨
      ∃ u ∈ r.targets, u.name = t.name ∧
        r.insert t = (.error (.duplicateTarget t.name u.dir t.dir), r) := by
  unfold Raw.insert
  cases hposition : r.byName.get? t.name with
  | none =>
    refine .inl ⟨?_, rfl⟩
    intro u hu hname
    obtain ⟨i, hi⟩ := List.mem_iff_getElem?.mp hu
    have htaken := (h.byName_iff t.name i).mpr ⟨u, hi, hname⟩
    simp [hposition] at htaken
  | some i =>
    obtain ⟨u, hu, hname⟩ := (h.byName_iff t.name i).mp hposition
    have hholder : r.targets[i]! = u := List.getElem!_of_getElem? hu
    exact .inr ⟨u, List.mem_of_getElem? hu, hname, by rw [← hholder]⟩

section Insertion

variable {t u : Target}

/-- A target whose name is free is added at the end. -/
theorem insert_of_free (h : ∀ u ∈ c.targets, u.name ≠ t.name) :
    ∃ next, c.insert t = .ok next ∧ next.targets = c.targets ++ [t] := by
  obtain ⟨-, hinsert⟩ | ⟨u, hu, hname, -⟩ := Raw.insert_cases c.inStep t
  · obtain ⟨next, hnext, hraw⟩ := insert_of_ok (congrArg Prod.fst hinsert)
    refine ⟨next, hnext, ?_⟩
    rw [targets, hraw, hinsert]
    rfl
  · exact absurd hname (h u hu)

/-- A target whose name is taken is refused, with the directory of the one that has
it. -/
theorem insert_of_taken (hu : u ∈ c.targets) (hname : u.name = t.name) :
    c.insert t = .error (.duplicateTarget t.name u.dir t.dir) := by
  obtain ⟨hfree, -⟩ | ⟨v, hv, hname', hinsert⟩ := Raw.insert_cases c.inStep t
  · exact absurd hname (hfree u hu)
  · have heq : v = u := List.inj_on_of_nodup_map c.distinct hv hu (hname'.trans hname.symm)
    rw [heq] at hinsert
    exact insert_of_error (congrArg Prod.fst hinsert)

/-- A target is only taken in under a name that was free. -/
theorem free_of_insert {next : Catalog} (h : c.insert t = .ok next) :
    ∀ u ∈ c.targets, u.name ≠ t.name := by
  intro u hu hname
  rw [insert_of_taken hu hname] at h
  contradiction

/-- A target that is taken in stands behind the others, which stay as they are. -/
theorem targets_of_insert {next : Catalog} (h : c.insert t = .ok next) :
    next.targets = c.targets ++ [t] := by
  obtain ⟨next', hinsert, htargets⟩ := insert_of_free (free_of_insert h)
  rw [← Except.ok.inj (hinsert.symm.trans h), htargets]

/-- A target whose name is free leaves the names free that are still to come. This
is the step of enrolling targets one after another. -/
theorem exists_insert_of_nodup {later : List String} (h : (c.names ++ t.name :: later).Nodup) :
    ∃ c', c.insert t = .ok c' ∧ c'.targets = c.targets ++ [t] ∧ (c'.names ++ later).Nodup := by
  have hfree : ∀ u ∈ c.targets, u.name ≠ t.name := by
    intro u hu
    exact (List.nodup_append.mp h).2.2 _ (mem_names_iff.mpr ⟨u, hu, rfl⟩) _ List.mem_cons_self
  obtain ⟨c', hinsert, htargets⟩ := insert_of_free hfree
  refine ⟨c', hinsert, htargets, ?_⟩
  rwa [names, htargets, List.map_append, List.append_assoc]

end Insertion

end SolutionTree.Catalog
