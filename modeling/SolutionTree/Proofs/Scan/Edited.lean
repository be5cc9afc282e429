import Mathlib.Data.List.Sort
import SolutionTree.Proofs.Catalog.Alike
import SolutionTree.Proofs.FileSystem.Reordered
import SolutionTree.Proofs.FileSystem.Under
import SolutionTree.Proofs.Scan.Faults
import SolutionTree.Proofs.Scan.Owners

/-!
One manifest with another content.

Source trees are compared that differ in what the manifest of one directory says,
other than whether it makes an executable and of which name (`EditsManifest`). No
name and no kind is told by the rest of a manifest, so what is wrong with one tree
is wrong with the other (`spoils_iff`, `clash_iff`), and both are scanned or neither
is. The targets correspond, and those that take no dependencies from the manifest
declare what they did (`forall₂_targets`).
-/

namespace SolutionTree

/-! ### Trees -/

namespace FileTree

/-- Trees that have the same directories and, but for one place, the same files. -/
structure SameBut (place : List String) (tree tree' : FileTree) : Prop where
  files : ∀ names content, names ≠ place →
    (tree.find? names = some (.file content) ↔ tree'.find? names = some (.file content))
  directories : ∀ names, (∃ entries, tree.find? names = some (.dir entries)) ↔
    ∃ entries, tree'.find? names = some (.dir entries)

variable {place names : List String} {tree tree' : FileTree}

theorem SameBut.symm (h : SameBut place tree tree') : SameBut place tree' tree where
  files names content hne := (h.files names content hne).symm
  directories names := (h.directories names).symm

/-- But for the one place, what a reader sees of the nodes is the same in both
trees. -/
theorem SameBut.content?_eq (h : SameBut place tree tree') (hne : names ≠ place) :
    (tree.find? names).map FileSystem.content? = (tree'.find? names).map FileSystem.content? := by
  have hside : ∀ {tree tree'}, SameBut place tree tree' → ∀ x,
      (tree.find? names).map FileSystem.content? = some x →
        (tree'.find? names).map FileSystem.content? = some x := by
    intro tree tree' h x hx
    obtain ⟨node, hfind, rfl⟩ := Option.map_eq_some_iff.mp hx
    cases node with
    | file content =>
      rw [(h.files names content hne).mp hfind]
      rfl
    | dir entries =>
      obtain ⟨entries', hfind'⟩ := (h.directories names).mp ⟨entries, hfind⟩
      rw [hfind']
      rfl
  exact Option.ext fun x => ⟨hside h x, hside h.symm x⟩

theorem sameBut_file (content content' : ByteArray) :
    SameBut [] (.file content) (.file content') where
  files names c hne := by
    cases names with
    | nil => exact absurd rfl hne
    | cons name names => simp
  directories names := by
    cases names with
    | nil => simp
    | cons name names => simp

/-- Directories that are the same but for one name, and below that name but for one
place. -/
theorem sameBut_of_below {place : List String} {entries entries' : List (String × FileTree)}
    {name : String} (hother : ∀ first, first ≠ name → entries.lookup first = entries'.lookup first)
    (hfiles : ∀ names content, names ≠ place →
      ((FileTree.dir entries).find? (name :: names) = some (.file content) ↔
        (FileTree.dir entries').find? (name :: names) = some (.file content)))
    (hdirs : ∀ names, (∃ inner, (FileTree.dir entries).find? (name :: names) = some (.dir inner)) ↔
      ∃ inner, (FileTree.dir entries').find? (name :: names) = some (.dir inner)) :
    SameBut (name :: place) (.dir entries) (.dir entries') := by
  have hbeside : ∀ first names, first ≠ name →
      (FileTree.dir entries).find? (first :: names) =
        (FileTree.dir entries').find? (first :: names) := by
    intro first names hne
    simp only [find?, FileTree.entries, hother first hne]
  constructor
  · intro names content hne
    cases names with
    | nil => simp
    | cons first names =>
      by_cases hfirst : first = name
      · subst hfirst
        exact hfiles names content fun heq => hne (heq ▸ rfl)
      · rw [hbeside first names hfirst]
  · intro names
    cases names with
    | nil => simp
    | cons first names =>
      by_cases hfirst : first = name
      · subst hfirst
        exact hdirs names
      · rw [hbeside first names hfirst]

/-- Trees that are the same but for a place below one entry. -/
theorem sameBut_entry {place : List String} {next next' : FileTree} (h : SameBut place next next')
    (before after : List (String × FileTree)) {name : String}
    (hbefore : before.lookup name = none) :
    SameBut (name :: place) (.dir (before ++ (name, next) :: after))
      (.dir (before ++ (name, next') :: after)) := by
  have hentry : ∀ (next : FileTree) names,
      (FileTree.dir (before ++ (name, next) :: after)).find? (name :: names) =
        next.find? names := by
    intro next names
    simp only [find?, entries, List.lookup_append, List.lookup_cons, hbefore, beq_self_eq_true,
      Option.none_or]
  refine sameBut_of_below (fun first hne => ?_) ?_ ?_
  · simp only [List.lookup_append, List.lookup_cons, beq_false_of_ne hne]
  · simpa only [hentry] using h.files
  · simpa only [hentry] using h.directories

end FileTree

/-! ### Manifests -/

/-- A content that is that of a well-formed manifest, with the name of an executable
or with none. -/
def Manifest.Declares (base : IncludeBase) (content : ByteArray)
    (executable : Option String) : Prop :=
  ∃ text m, String.fromUTF8? content = some text ∧ Manifest.parse base text = .ok m ∧
    m.executable = executable

/-- Where trees differ in the manifest of one directory only, those of other
directories say the same. -/
theorem Project.manifestOf_eq_of_sameBut {p : Project} {dir names : List String}
    {fs fs' : FileSystem}
    {tree tree' : FileTree} {entries : List (String × FileTree)}
    (hnode : fs.node? p.sourceDir = .ok tree) (hnode' : fs'.node? p.sourceDir = .ok tree')
    (hwf : tree.WellFormed) (hmanifest : Path.isPlain p.settings.layout.manifest = true)
    (hsame : tree.SameBut (dir ++ [p.settings.layout.manifest]) tree')
    (hdir : tree.find? names = some (.dir entries)) (hne : names ≠ dir) :
    p.manifestOf fs names = p.manifestOf fs' names := by
  obtain ⟨entries', hdir'⟩ := (hsame.directories names).mp ⟨entries, hdir⟩
  have hplace : names ++ [p.settings.layout.manifest] ≠ dir ++ [p.settings.layout.manifest] :=
    fun heq => hne (List.append_cancel_right heq)
  refine Manifest.load_congr ?_
  show fs.readText ((p.sourceDir.under names).under [p.settings.layout.manifest]) =
    fs'.readText ((p.sourceDir.under names).under [p.settings.layout.manifest])
  rw [← Path.under_append]
  exact FileSystem.readText_under_congr (hwf.isPlain_of_find? hdir) hmanifest hnode hnode'
    hdir hdir'
    (hsame.content?_eq hplace)

/-- Two source trees of a project that differ in nothing but what the manifest of
one directory says; it is well-formed in both, and makes an executable of one name
or none. -/
structure Project.EditsManifest (p : Project) (dir : List String) (fs fs' : FileSystem)
    (tree tree' : FileTree) : Prop where
  node : fs.node? p.sourceDir = .ok tree
  node' : fs'.node? p.sourceDir = .ok tree'
  wellFormed : tree.WellFormed
  wellFormed' : tree'.WellFormed
  manifest : Path.isPlain p.settings.layout.manifest = true
  same : tree.SameBut (dir ++ [p.settings.layout.manifest]) tree'
  declares : ∃ executable content content',
    tree.find? (dir ++ [p.settings.layout.manifest]) = some (.file content) ∧
    tree'.find? (dir ++ [p.settings.layout.manifest]) = some (.file content') ∧
    Manifest.Declares p.includeBase content executable ∧
    Manifest.Declares p.includeBase content' executable

/-- Whether a target has its dependencies from the manifest of a directory: it
stands there, or it is a test or a script right below. -/
def Target.TakesFrom (t : Target) (relativeDir : String) : Prop :=
  t.relativeDir = relativeDir ∨ t.kind.isRunnable = true ∧ IsParent t.relativeDir relativeDir

/-- Two targets that others cannot tell apart, and that declare the same unless they
have their dependencies from the manifest of one directory. -/
structure Target.AlikeBut (relativeDir : String) (t u : Target) : Prop where
  alike : t.Alike u
  declares : ¬ t.TakesFrom relativeDir → t.manifest = u.manifest ∧ t.owner = u.owner

theorem SameOutcome.refl {ε α : Type} {related : α → α → Prop} (h : ∀ a, related a a)
    (x : Except ε α) : SameOutcome related x x := by
  cases x with
  | error e => exact .error e
  | ok a => exact .ok (h a)

/-- Runs of the same outcome fail with the same errors. -/
theorem SameOutcome.error_iff {ε α β : Type} {related : α → β → Prop} {x : Except ε α}
    {y : Except ε β} (h : SameOutcome related x y) (e : ε) : x = .error e ↔ y = .error e := by
  cases h with
  | error e' => simp
  | ok hab => simp

namespace Project.EditsManifest

variable {p : Project} {dir names : List String} {fs fs' : FileSystem} {tree tree' : FileTree}
  {entries : List (String × FileTree)}

theorem symm (h : p.EditsManifest dir fs fs' tree tree') :
    p.EditsManifest dir fs' fs tree' tree where
  node := h.node'
  node' := h.node
  wellFormed := h.wellFormed'
  wellFormed' := h.wellFormed
  manifest := h.manifest
  same := h.same.symm
  declares := by
    obtain ⟨executable, content, content', hfile, hfile', hold, hnew⟩ := h.declares
    exact ⟨executable, content', content, hfile', hfile, hnew, hold⟩

variable (h : p.EditsManifest dir fs fs' tree tree')
include h

theorem exists_file {content : ByteArray} (hfile : tree.find? names = some (.file content)) :
    ∃ content', tree'.find? names = some (.file content') := by
  by_cases hplace : names = dir ++ [p.settings.layout.manifest]
  · obtain ⟨-, -, content', -, hfile', -⟩ := h.declares
    exact ⟨content', hplace ▸ hfile'⟩
  · exact ⟨content, (h.same.files names content hplace).mp hfile⟩

/-- A manifest other than the edited one is read alike. -/
theorem manifestOf_eq (hdir : tree.find? names = some (.dir entries)) (hne : names ≠ dir) :
    p.manifestOf fs names = p.manifestOf fs' names :=
  manifestOf_eq_of_sameBut h.node h.node' h.wellFormed h.manifest h.same hdir hne

/-- What the edited manifest says of an executable it says in both trees, unless its
path is refused. -/
theorem manifestOf_edited : SameOutcome (fun m m' : Manifest => m.executable = m'.executable)
    (p.manifestOf fs dir) (p.manifestOf fs' dir) := by
  obtain ⟨executable, content, content', hfile, hfile', ⟨text, m, htext, hparse, hexe⟩,
    ⟨text', m', htext', hparse', hexe'⟩⟩ := h.declares
  have hplain := h.wellFormed.isPlain_of_find? hfile
  have hpath : (p.sourceDir.under dir).child p.settings.layout.manifest =
      p.sourceDir.under (dir ++ [p.settings.layout.manifest]) :=
    (Path.under_append p.sourceDir dir [p.settings.layout.manifest]).symm
  have hnode := FileSystem.node?_under_eq hplain h.node
  have hnode' := FileSystem.node?_under_eq hplain h.node'
  cases hrefusal : FileSystem.refusal?
      (p.sourceDir.under (dir ++ [p.settings.layout.manifest])) with
  | some e =>
    rw [hrefusal] at hnode hnode'
    have hsame : p.manifestOf fs dir = p.manifestOf fs' dir := by
      refine Manifest.load_congr ?_
      rw [hpath]
      exact FileSystem.readText_congr (hnode.trans hnode'.symm)
    rw [hsame]
    refine .refl ?_ _
    exact fun m => rfl
  | none =>
    have hload : ∀ {fs : FileSystem} {tree content text m}, fs.node? p.sourceDir = .ok tree →
        tree.find? (dir ++ [p.settings.layout.manifest]) = some (.file content) →
        String.fromUTF8? content = some text → Manifest.parse p.includeBase text = .ok m →
        p.manifestOf fs dir = .ok m := by
      intro fs tree content text m hnode hfile htext hparse
      have hfound := FileSystem.node?_under hplain hnode hfile hrefusal
      refine Manifest.load_eq_ok_iff.mpr (.inr ⟨text, ?_, ?_⟩)
      · rw [hpath]
        exact FileSystem.readText_of_node? hfound htext
      · rw [Manifest.parseAt, hparse]
        rfl
    rw [hload h.node hfile htext hparse, hload h.node' hfile' htext' hparse']
    exact .ok (hexe.trans hexe'.symm)

/-- **A manifest makes the same executable** in both trees, or is wrong in both.
This is all that names, kinds and identifiers take from it. -/
theorem manifestOf_sameOutcome (hdir : tree.find? names = some (.dir entries)) :
    SameOutcome (fun m m' : Manifest => m.executable = m'.executable)
      (p.manifestOf fs names) (p.manifestOf fs' names) := by
  by_cases hne : names = dir
  · rw [hne]
    exact h.manifestOf_edited
  · rw [h.manifestOf_eq hdir hne]
    refine .refl ?_ _
    exact fun m => rfl

/-! ### What is wrong with a tree -/

theorem listable (hlisted : p.Listable tree) : p.Listable tree' := by
  intro names entries' hdir' hkept
  obtain ⟨entries, hdir⟩ := (h.same.directories names).mpr ⟨entries', hdir'⟩
  exact hlisted names entries hdir hkept

/-- The edit changes what a file says and adds no entry, so that the same
directories make targets on both sides. -/
theorem makesTarget (hmakes : p.MakesTarget tree names) : p.MakesTarget tree' names := by
  obtain ⟨⟨name, content, hfile, hname⟩, hkept⟩ := hmakes
  obtain ⟨content', hfile'⟩ := h.exists_file hfile
  exact ⟨⟨name, content', hfile', hname⟩, hkept⟩

/-- Where one side reads a manifest, the other one does, and it makes an executable
of the same name or none. -/
theorem exists_manifest {m : Manifest} (hdir : tree.find? names = some (.dir entries))
    (hload : p.manifestOf fs names = .ok m) :
    ∃ m', p.manifestOf fs' names = .ok m' ∧ m'.executable = m.executable := by
  have houtcome := h.manifestOf_sameOutcome hdir
  rw [hload] at houtcome
  generalize p.manifestOf fs' names = y at houtcome ⊢
  cases houtcome with
  | ok hexe => exact ⟨_, rfl, hexe.symm⟩

/-- The edited manifest is well-formed, so a malformed one is another one, and it is
the same on both sides. -/
theorem badManifest {fault : Fault} (hdir : tree.find? names = some (.dir entries))
    (hbad : p.BadManifest fs names fault) : p.BadManifest fs' names fault := by
  rw [badManifest_iff] at hbad ⊢
  exact ((h.manifestOf_sameOutcome hdir).error_iff fault).mp hbad

/-- What keeps a directory from making its target does so on both sides. -/
theorem spoils {fault : Fault} (hspoils : p.Spoils fs tree names fault) :
    p.Spoils fs' tree' names fault := by
  obtain ⟨entries, hdir⟩ := hspoils.makesTarget.exists_dir
  cases hspoils with
  | own hmakes hbad => exact .own (h.makesTarget hmakes) (h.badManifest hdir hbad)
  | owner hmakes hload hexe hlast hbad =>
    obtain ⟨m', hload', hexe'⟩ := h.exists_manifest hdir hload
    have hne : names ≠ [] := by
      rintro rfl
      simp at hlast
    obtain ⟨above, habove⟩ := FileTree.exists_dir_dropLast hne hdir
    exact .owner (h.makesTarget hmakes) hload' (hexe'.trans hexe) hlast (h.badManifest habove hbad)

theorem calls {name : String} (hmakes : p.MakesTarget tree names) (hcalls : p.Calls fs names name) :
    p.Calls fs' names name := by
  obtain ⟨m, hload, rfl⟩ := hcalls
  obtain ⟨entries, hdir⟩ := hmakes.exists_dir
  obtain ⟨m', hload', hexe'⟩ := h.exists_manifest hdir hload
  exact ⟨m', hload', by rw [hexe']⟩

/-- Two targets of one name have one name on both sides, since names come of
directories and of executables. -/
theorem clash {name : String} {first second : List String}
    (hclash : p.Clash fs tree name first second) : p.Clash fs' tree' name first second where
  makes_first := h.makesTarget hclash.makes_first
  makes_second := h.makesTarget hclash.makes_second
  earlier := hclash.earlier
  calls_first := h.calls hclash.makes_first hclash.calls_first
  calls_second := h.calls hclash.makes_second hclash.calls_second

/-! ### Scans -/

/-- Both trees are scanned or neither is: what may be wrong with patterns, manifests
and names is the same in both. -/
theorem exists_catalog {supply : Identifier.Supply}
    (hscan : ∃ catalog supply', p.scan fs supply = (.ok catalog, supply')) :
    ∃ catalog supply', p.scan fs' supply = (.ok catalog, supply') := by
  have hlisted : p.Listable tree := by
    obtain ⟨catalog, supply', hscan⟩ := hscan
    exact listable_of_scan h.node h.wellFormed hscan
  obtain ⟨hread, hnone, hfree⟩ :=
    (exists_catalog_iff_clear h.node h.wellFormed hlisted supply).mp hscan
  refine (exists_catalog_iff_clear h.node' h.wellFormed' (h.listable hlisted) supply).mpr
    ⟨hread, ?_, ?_⟩
  · exact fun names fault hspoils => hnone names fault (h.symm.spoils hspoils)
  · exact fun name first second hclash => hfree name first second (h.symm.clash hclash)

/-- **What two trees make of one directory** others cannot tell apart, and it
declares the same unless the edited manifest says what it declares. -/
theorem alikeBut_of_describes {t u : Target} (hmakes : p.MakesTarget tree names)
    (ht : p.Describes fs names t) (hu : p.Describes fs' names u) (hid : t.id = u.id) :
    Target.AlikeBut (Path.dirText dir) t u := by
  obtain ⟨entries, hdir⟩ := hmakes.exists_dir
  have hplain := h.wellFormed.isPlain_of_find? hdir
  have hexe : t.manifest.executable = u.manifest.executable := by
    obtain ⟨m', hload, hexe⟩ := h.exists_manifest hdir ht.manifest
    rw [← hexe, Except.ok.inj (hload.symm.trans hu.manifest)]
  have hkind : t.kind = u.kind := by
    rw [ht.classified.kind_eq, hu.classified.kind_eq, hexe]
  refine ⟨⟨?_, hkind, hid, ht.relativeDir.trans hu.relativeDir.symm⟩, fun hnot => ⟨?_, ?_⟩⟩
  · rw [ht.classified.name_eq, hu.classified.name_eq, hexe]
  · have hne : names ≠ dir := by
      rintro rfl
      exact hnot (.inl ht.relativeDir)
    exact Except.ok.inj (ht.manifest.symm.trans ((h.manifestOf_eq hdir hne).trans hu.manifest))
  · cases hrun : t.kind.isRunnable with
    | false =>
      rw [ht.classified.owner_eq_none hrun, hu.classified.owner_eq_none (hkind ▸ hrun)]
    | true =>
      obtain ⟨owner, howner, hne, howns⟩ := ht.classified.exists_owner hrun
      obtain ⟨owner', howner', -, howns'⟩ := hu.classified.exists_owner (hkind ▸ hrun)
      have habove : names.dropLast ≠ dir := by
        intro heq
        refine hnot (.inr ⟨hrun, parentDir_eq_iff.mp ?_⟩)
        rw [ht.relativeDir, Target.parentDir_dirText hplain hne, heq]
      obtain ⟨above, hdropped⟩ := FileTree.exists_dir_dropLast hne hdir
      rw [howner, howner', howns.unique howns' (h.manifestOf_eq hdropped habove)]

section Catalogs

variable {catalog catalog' : Catalog} {supply last last' : Identifier.Supply}
  (hscan : p.scan fs supply = (.ok catalog, last))
  (hscan' : p.scan fs' supply = (.ok catalog', last'))
include hscan hscan'

/-- Targets stand in the same directories on both sides. -/
theorem directories_eq : catalog.directories = catalog'.directories := by
  refine List.Pairwise.eq_of_mem_iff (directories_of_scan_increasing h.node h.wellFormed hscan)
    (directories_of_scan_increasing h.node' h.wellFormed' hscan') fun text => ?_
  rw [mem_directories_of_scan_iff h.node h.wellFormed hscan,
    mem_directories_of_scan_iff h.node' h.wellFormed' hscan']
  constructor
  · rintro ⟨names, hmakes, htext⟩
    exact ⟨names, h.makesTarget hmakes, htext⟩
  · rintro ⟨names, hmakes, htext⟩
    exact ⟨names, h.symm.makesTarget hmakes, htext⟩

/-- Identifiers follow the order of directories, and so the edit does not move them.
-/
theorem ids_eq : catalog.targets.map Target.id = catalog'.targets.map Target.id := by
  have hsize : catalog.size = catalog'.size := by
    have hlength := congrArg List.length (h.directories_eq hscan hscan')
    rwa [Catalog.directories, Catalog.directories, List.length_map, List.length_map] at hlength
  rw [(ids_of_scan hscan).1, (ids_of_scan hscan').1, hsize]

/-- **The targets of both trees correspond**, one by one: the directories are the
same and stand in the same order. -/
theorem forall₂_targets : List.Forall₂ (fun t u => t ∈ catalog.targets ∧ u ∈ catalog'.targets ∧
    Target.AlikeBut (Path.dirText dir) t u) catalog.targets catalog'.targets := by
  have hdirs := h.directories_eq hscan hscan'
  have hids := h.ids_eq hscan hscan'
  have hlength : catalog.targets.length = catalog'.targets.length := by
    simpa using congrArg List.length hids
  refine List.forall₂_iff_get.mpr ⟨hlength, fun i hi hi' => ?_⟩
  have hmem := List.get_mem catalog.targets ⟨i, hi⟩
  have hmem' := List.get_mem catalog'.targets ⟨i, hi'⟩
  refine ⟨hmem, hmem', ?_⟩
  obtain ⟨names, hmakes, hdescribes⟩ := describes_of_scan h.node h.wellFormed hscan hmem
  obtain ⟨names', hmakes', hdescribes'⟩ := describes_of_scan h.node' h.wellFormed' hscan' hmem'
  have hdir : (catalog.targets.get ⟨i, hi⟩).relativeDir =
      (catalog'.targets.get ⟨i, hi'⟩).relativeDir := by
    have hget := List.getElem_of_eq hdirs (i := i) (by rwa [Catalog.directories, List.length_map])
    simpa [Catalog.directories] using hget
  have hid : (catalog.targets.get ⟨i, hi⟩).id = (catalog'.targets.get ⟨i, hi'⟩).id := by
    have hget := List.getElem_of_eq hids (i := i) (by rwa [List.length_map])
    simpa using hget
  obtain rfl : names = names' := by
    refine Path.dirText_injective (hmakes.isPlain h.wellFormed) (hmakes'.isPlain h.wellFormed') ?_
    rw [← hdescribes.relativeDir, ← hdescribes'.relativeDir, hdir]
  exact h.alikeBut_of_describes hmakes hdescribes hdescribes' hid

end Catalogs

end Project.EditsManifest
end SolutionTree
