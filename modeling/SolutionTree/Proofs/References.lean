import Mathlib.Computability.Primrec.List
import Mathlib.Data.List.Permutation
import SolutionTree.Proofs.Catalog.Insertion
import SolutionTree.Proofs.Dependencies
import SolutionTree.Proofs.References.Directory
import SolutionTree.Solution

/-!
The references of a solution, said in one step.

A solution resolves a declared name twice: `Catalog.canonicalName` puts the name of a target in its
place, and `Member.ofTarget` looks that name up again. `Catalog.StandsFor` says what a declared name
means without either, `Catalog.Refers` what a list of declared names comes to, and
`Catalog.RefersTo` what all references of a target are.

* `find?_canonicalName` — the second look-up finds the target that the first one found, and
  nothing where the first one found nothing.
* `resolve?_eq_some_iff` — a name resolves to the target that it stands for.
* `references_iff_refersTo` — the references of a member are the ones that its target has.
-/

namespace SolutionTree

def Target.reference (t : Target) : Reference := ⟨t.name, t.id⟩

namespace Catalog

/-! ### What a declared name means -/

/-- The target that a name stands for where it is declared: the target of that name;
else the one in the directory of that name beside the declaring directory; else the
one in the directory that the name spells without the slashes at its ends. -/
inductive StandsFor (c : Catalog) (declaringDir name : String) (t : Target) : Prop where
  | named : t ∈ c.targets → t.name = name → StandsFor c declaringDir name t
  | beside {parent : String} :
      name ∉ c.names → IsParent declaringDir parent → t ∈ c.targets →
      t.relativeDir = (if parent = "" then name else parent ++ "/" ++ name) →
      StandsFor c declaringDir name t
  | spelled {parent bare : String} :
      name ∉ c.names → IsParent declaringDir parent →
      (∀ u ∈ c.targets, u.relativeDir ≠ if parent = "" then name else parent ++ "/" ++ name) →
      IsBare name bare → t ∈ c.targets → t.relativeDir = bare →
      StandsFor c declaringDir name t

/-- What declared names come to, in order: references to the targets that they stand
for. A name that stands for no target comes to nothing. -/
inductive Refers (c : Catalog) (declaringDir : String) : List String → List Reference → Prop where
  | nil : Refers c declaringDir [] []
  | found {name : String} {names : List String} {t : Target} {references : List Reference} :
      c.StandsFor declaringDir name t → Refers c declaringDir names references →
      Refers c declaringDir (name :: names) (t.reference :: references)
  | dropped {name : String} {names : List String} {references : List Reference} :
      (∀ t, ¬ c.StandsFor declaringDir name t) → Refers c declaringDir names references →
      Refers c declaringDir (name :: names) references

/-- The references of a target: what the names in its own manifest come to, or, for
a runnable with an owner, what the owner's names come to, and then the target of the
owner's name if there is one. -/
inductive RefersTo (c : Catalog) (t : Target) : List Reference → Prop where
  | own {references : List Reference} :
      (t.kind.isRunnable = true → t.owner = none) →
      c.Refers t.relativeDir t.manifest.dependencies references → RefersTo c t references
  | owned {owner : Owner} {u : Target} {references : List Reference} :
      t.kind.isRunnable = true → t.owner = some owner →
      c.Refers owner.relativeDir owner.dependencies references →
      u ∈ c.targets → u.name = owner.name → RefersTo c t (references ++ [u.reference])
  | alone {owner : Owner} {references : List Reference} :
      t.kind.isRunnable = true → t.owner = some owner →
      c.Refers owner.relativeDir owner.dependencies references →
      owner.name ∉ c.names → RefersTo c t references

variable {c : Catalog}

/-- The directory beside another one is the name behind the directory above it, or
the name alone if the other one stands in the source directory. -/
theorem siblingDir_eq {declaringDir parent : String} (h : IsParent declaringDir parent)
    (name : String) :
    siblingDir declaringDir name = if parent = "" then name else parent ++ "/" ++ name := by
  rw [siblingDir, h.eq_parentDir]

/-- **What a declared name is resolved to** is what it stands for. The three
look-ups are the three cases of `StandsFor`, in their order. -/
theorem resolve?_eq_some_iff (hdirs : c.directories.Nodup) {declaringDir name : String}
    {t : Target} : c.resolve? declaringDir name = some t ↔ c.StandsFor declaringDir name t := by
  have hparent := isParent_parentDir declaringDir
  unfold resolve?
  cases hname : c.find? name with
  | some u =>
    obtain ⟨hu, hun⟩ := find?_eq_some_iff.mp hname
    have htaken : name ∈ c.names := mem_names_iff.mpr ⟨u, hu, hun⟩
    constructor
    · intro h
      obtain rfl := Option.some.inj h
      exact .named hu hun
    · rintro (⟨ht, htn⟩ | ⟨hnot, -, -, -⟩ | ⟨hnot, -, -, -, -, -⟩)
      · exact hname.symm.trans (find?_eq_some_iff.mpr ⟨ht, htn⟩)
      · exact absurd htaken hnot
      · exact absurd htaken hnot
  | none =>
    have hfree : name ∉ c.names := find?_eq_none_iff.mp hname
    have hnamed : ∀ u ∈ c.targets, u.name ≠ name := fun u hu e =>
      hfree (mem_names_iff.mpr ⟨u, hu, e⟩)
    cases hbeside : c.findDir? (siblingDir declaringDir name) with
    | some u =>
      have hu := (findDir?_eq_some_iff hdirs).mp hbeside
      constructor
      · intro h
        obtain rfl := Option.some.inj h
        exact .beside hfree hparent hu.1 (hu.2.trans (siblingDir_eq hparent name))
      · rintro (⟨ht, htn⟩ | ⟨-, hp, ht, htd⟩ | ⟨-, hp, hnone, -, -, -⟩)
        · exact absurd htn (hnamed t ht)
        · rw [← siblingDir_eq hp] at htd
          exact hbeside.symm.trans ((findDir?_eq_some_iff hdirs).mpr ⟨ht, htd⟩)
        · exact absurd (hu.2.trans (siblingDir_eq hp name)) (hnone u hu.1)
    | none =>
      have hnone := findDir?_eq_none_iff.mp hbeside
      show c.findDir? (withoutSlashes name) = some t ↔ _
      rw [findDir?_eq_some_iff hdirs]
      constructor
      · rintro ⟨ht, htd⟩
        refine .spelled hfree hparent ?_ (isBare_withoutSlashes name) ht htd
        rw [← siblingDir_eq hparent]
        exact hnone
      · rintro (⟨ht, htn⟩ | ⟨-, hp, ht, htd⟩ | ⟨-, -, -, hbare, ht, htd⟩)
        · exact absurd htn (hnamed t ht)
        · exact absurd (htd.trans (siblingDir_eq hp name).symm) (hnone t ht)
        · exact ⟨ht, htd.trans hbare.eq_withoutSlashes⟩

/-! ### Both look-ups at once -/

theorem mem_targets_of_resolve? {declaringDir name : String} {t : Target}
    (h : c.resolve? declaringDir name = some t) : t ∈ c.targets := by
  unfold resolve? at h
  split at h
  next u hname =>
    obtain rfl := Option.some.inj h
    exact (find?_eq_some_iff.mp hname).1
  next =>
    split at h
    next u hbeside =>
      obtain rfl := Option.some.inj h
      exact mem_of_findDir? hbeside
    next => exact mem_of_findDir? h

/-- A name that is put in the place of a declared one is found again, and a declared
name that is kept because it stands for nothing is not found either. -/
theorem find?_canonicalName (declaringDir name : String) :
    c.find? (c.canonicalName declaringDir name) = c.resolve? declaringDir name := by
  unfold canonicalName
  cases h : c.resolve? declaringDir name with
  | some t => exact find?_eq_some_iff.mpr ⟨mem_targets_of_resolve? h, rfl⟩
  | none =>
    unfold resolve? at h
    split at h
    next => contradiction
    next hname => exact hname

/-- The references that declared names resolve to. -/
def declaredReferences (c : Catalog) (declaringDir : String) (names : List String) :
    List Reference :=
  names.filterMap fun name => (c.resolve? declaringDir name).map Target.reference

/-- The references that a target resolves to. -/
def referencesOf (c : Catalog) (t : Target) : List Reference :=
  match t.runnableOwner? with
  | some owner =>
    c.declaredReferences owner.relativeDir owner.dependencies ++
      ((c.find? owner.name).map Target.reference).toList
  | none => c.declaredReferences t.relativeDir t.manifest.dependencies

/-- The references of declared names are told apart by `Refers`: each name that
stands for a target gives one, and order and repetitions stay. -/
theorem refers_iff (hdirs : c.directories.Nodup) {declaringDir : String} {names : List String}
    {references : List Reference} :
    c.Refers declaringDir names references ↔
      references = c.declaredReferences declaringDir names := by
  constructor
  · intro h
    induction h with
    | nil => rfl
    | found hs _ ih =>
      have hr := (resolve?_eq_some_iff hdirs).mpr hs
      rw [ih, declaredReferences, declaredReferences, List.filterMap_cons, hr]
      rfl
    | @dropped name _ _ hs _ ih =>
      have hr : c.resolve? declaringDir name = none :=
        Option.eq_none_iff_forall_ne_some.mpr fun t ht => hs t ((resolve?_eq_some_iff hdirs).mp ht)
      rw [ih, declaredReferences, declaredReferences, List.filterMap_cons, hr]
      rfl
  · rintro rfl
    induction names with
    | nil => exact .nil
    | cons name names ih =>
      rw [declaredReferences, List.filterMap_cons]
      cases hr : c.resolve? declaringDir name with
      | some t => exact .found ((resolve?_eq_some_iff hdirs).mp hr) ih
      | none =>
        refine .dropped (fun t ht => ?_) ih
        rw [(resolve?_eq_some_iff hdirs).mpr ht] at hr
        contradiction

theorem runnableOwner?_eq_some_iff {t : Target} {owner : Owner} :
    t.runnableOwner? = some owner ↔ t.kind.isRunnable = true ∧ t.owner = some owner := by
  simp [Target.runnableOwner?]

theorem runnableOwner?_eq_none_iff {t : Target} :
    t.runnableOwner? = none ↔ (t.kind.isRunnable = true → t.owner = none) := by
  simp [Target.runnableOwner?]

/-- The references of a target are those that `RefersTo` derives, and no other list
is derivable. -/
theorem refersTo_iff (hdirs : c.directories.Nodup) {t : Target} {references : List Reference} :
    c.RefersTo t references ↔ references = c.referencesOf t := by
  unfold referencesOf
  constructor
  · rintro (⟨hown, h⟩ | ⟨hrun, howner, h, hu, hun⟩ | ⟨hrun, howner, h, hfree⟩)
    · rw [runnableOwner?_eq_none_iff.mpr hown]
      exact (refers_iff hdirs).mp h
    · rw [runnableOwner?_eq_some_iff.mpr ⟨hrun, howner⟩]
      simp only [find?_eq_some_iff.mpr ⟨hu, hun⟩, (refers_iff hdirs).mp h, Option.map_some,
        Option.toList_some]
    · rw [runnableOwner?_eq_some_iff.mpr ⟨hrun, howner⟩]
      simp only [find?_eq_none_iff.mpr hfree, (refers_iff hdirs).mp h, Option.map_none,
        Option.toList_none, List.append_nil]
  · rintro rfl
    cases howner : t.runnableOwner? with
    | none =>
      exact .own (runnableOwner?_eq_none_iff.mp howner) ((refers_iff hdirs).mpr rfl)
    | some owner =>
      obtain ⟨hrun, hsome⟩ := runnableOwner?_eq_some_iff.mp howner
      have hrefers := (refers_iff hdirs).mpr
        (rfl : _ = c.declaredReferences owner.relativeDir owner.dependencies)
      cases hfind : c.find? owner.name with
      | none =>
        simp only [hfind, Option.map_none, Option.toList_none, List.append_nil]
        exact .alone hrun hsome hrefers (find?_eq_none_iff.mp hfind)
      | some u =>
        obtain ⟨hu, hun⟩ := find?_eq_some_iff.mp hfind
        simp only [hfind, Option.map_some, Option.toList_some]
        exact .owned hrun hsome hrefers hu hun

/-- **The identifier of a name** is that of the target which is called so: the
dictionary of identifiers and that of positions have the same names. -/
theorem identifiers_get? (c : Catalog) (name : String) :
    c.identifiers.get? name = (c.find? name).map Target.id := by
  have hkeys : ((c.targets.map fun t => (t.name, t.id)).reverse.map Prod.fst).Nodup := by
    rw [List.map_reverse, List.nodup_reverse, List.map_map]
    exact c.distinct
  apply Option.ext
  intro id
  rw [identifiers, Dictionary.get?_ofList, Association.lookup_eq_some_iff_mem hkeys]
  simp [find?_eq_some_iff, and_assoc]

/-- A looked-up name makes the reference to the target that is found: the dictionary
of identifiers and that of positions agree. -/
theorem reference_of_identifiers (name : String) :
    ((c.identifiers.get? name).map fun id => (⟨name, id⟩ : Reference)) =
      (c.find? name).map Target.reference := by
  rw [identifiers_get?]
  cases h : c.find? name with
  | none => rfl
  | some u =>
    obtain ⟨-, rfl⟩ := find?_eq_some_iff.mp h
    rfl

/-- Looking up the names that stand for declared ones makes the declared references.
-/
theorem filterMap_canonicalName (declaringDir : String) (names : List String) :
    ((names.map (c.canonicalName declaringDir)).filterMap fun name =>
      (c.identifiers.get? name).map fun id => (⟨name, id⟩ : Reference)) =
      c.declaredReferences declaringDir names := by
  rw [List.filterMap_map, declaredReferences]
  refine List.filterMap_congr fun name _ => ?_
  rw [Function.comp_apply, reference_of_identifiers, find?_canonicalName]

/-- The references of a member are the ones that its target resolves to. The names
are looked up twice, once to make them canonical and once for their identifiers, and
a canonical name stands for itself. -/
theorem references_ofTarget {t : Target} (ht : t ∈ c.targets) (extension : String) :
    (Member.ofTarget c.identifiers (.ofCatalog c) extension t).references = c.referencesOf t := by
  rw [Member.ofTarget, Dependencies.of_ofCatalog ht, dependenciesOf, referencesOf]
  cases t.runnableOwner? with
  | none => exact filterMap_canonicalName _ _
  | some owner =>
    dsimp only
    rw [List.filterMap_append, filterMap_canonicalName, List.filterMap_cons, List.filterMap_nil,
      reference_of_identifiers]
    cases c.find? owner.name <;> rfl

section Runnable

variable {t u : Target} {owner : Owner} {declared : List Reference}

variable (hdirs : c.directories.Nodup) (ht : t ∈ c.targets) (hrun : t.kind.isRunnable = true)
  (howner : t.owner = some owner)
  (hdeclared : c.Refers owner.relativeDir owner.dependencies declared)
include hdirs ht hrun howner hdeclared

/-- The last reference of a runnable is that to the target of its owner's name. -/
theorem references_of_owned (hu : u ∈ c.targets) (hname : u.name = owner.name)
    (extension : String) :
    (Member.ofTarget c.identifiers (.ofCatalog c) extension t).references =
      declared ++ [u.reference] := by
  have hrefers : c.RefersTo t (declared ++ [u.reference]) :=
    .owned hrun howner hdeclared hu hname
  rw [references_ofTarget ht, (refersTo_iff hdirs).mp hrefers]

/-- A runnable without a target of its owner's name has the owner's declared
references alone. -/
theorem references_of_alone (hfree : owner.name ∉ c.names) (extension : String) :
    (Member.ofTarget c.identifiers (.ofCatalog c) extension t).references = declared := by
  have hrefers : c.RefersTo t declared := .alone hrun howner hdeclared hfree
  rw [references_ofTarget ht, ← (refersTo_iff hdirs).mp hrefers]

end Runnable

end Catalog

/-! ### Members of a solution -/

/-- A solution has the member of every target, and no other. -/
theorem Solution.members_assemble_perm {c : Catalog} {d : Dependencies}
    {options : SolutionOptions} {s : Solution} (h : assemble c d options = .ok s) :
    s.members.Perm (c.targets.map (Member.ofTarget c.identifiers d options.extension)) := by
  unfold assemble at h
  split at h
  next => contradiction
  next main _ =>
    obtain rfl := Except.ok.inj h
    exact List.mergeSort_perm _ _

/-- **References of a solution.** Of a catalog without two targets in one directory,
every solution has one member for each target, and its references are the ones that
the target refers to, which `Catalog.RefersTo` says in full: which names count, what
each stands for, and in which order. -/
theorem references_iff_refersTo {c : Catalog} (hdirs : c.directories.Nodup)
    {options : SolutionOptions} {s : Solution}
    (h : Solution.assemble c (.ofCatalog c) options = .ok s) :
    (s.members.map Member.target).Perm c.targets ∧
      ∀ m ∈ s.members, ∀ references,
        m.references = references ↔ c.RefersTo m.target references := by
  have hperm := Solution.members_assemble_perm h
  constructor
  · have htargets := hperm.map Member.target
    rw [List.map_map] at htargets
    simpa [Function.comp_def, Member.ofTarget] using htargets
  · intro m hm references
    obtain ⟨t, ht, rfl⟩ := List.mem_map.mp (hperm.mem_iff.mp hm)
    rw [Catalog.references_ofTarget ht, Catalog.refersTo_iff hdirs]
    exact eq_comm

/-- Two libraries beside each other and the test of the second one. The names that
the second one declares mean the first one by its directory, written in two ways,
and nothing. -/
def besideEachOther : Catalog :=
  Catalog.empty.offers [.bare .library "lib_a" "lib/a" [] none,
    .bare .library "lib_b" "lib/b" ["a", "boost", "/lib/a/", "a"] none,
    .bare .test "lib_b_test" "lib/b/test" ["extra"]
      (some ⟨"lib_b", "lib/b", ["a", "boost", "/lib/a/", "a"]⟩)]

/-- One name is found beside the declaring directory, another one from the source
root by the same directory, and the third one is none; the test has what its owner
declares, and then its owner. -/
theorem references_iff_refersTo_besideEachOther :
    besideEachOther.directories.Nodup ∧
      ∃ s, Solution.assemble besideEachOther (.ofCatalog besideEachOther) {} = .ok s ∧
        s.members.map (fun m => m.references.map Reference.name) =
          [[], ["lib_a", "lib_a", "lib_a"], ["lib_a", "lib_a", "lib_a", "lib_b"]] ∧
        ∀ m ∈ s.members, besideEachOther.RefersTo m.target m.references := by
  have hdirs : besideEachOther.directories.Nodup := by decide
  have h : Solution.assemble besideEachOther (.ofCatalog besideEachOther) {} = .ok _ := rfl
  refine ⟨hdirs, _, h, by cbv, fun m hm => ?_⟩
  exact ((references_iff_refersTo hdirs h).2 m hm _).mp rfl

end SolutionTree
