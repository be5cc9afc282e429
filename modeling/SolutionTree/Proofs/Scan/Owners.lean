import SolutionTree.Proofs.References
import SolutionTree.Proofs.Scan.Identifiers
import SolutionTree.Proofs.Scan.Reading

/-!
Runnables and the directories above them.

The owner of a test or a script is made anew of the manifest in the directory above
it. If that directory makes a target, the owner has the target's name
(`Owns.name_eq`), its directory and what it declares (`Owns.dependencies_eq`),
though neither is looked up among the targets. So the runnable depends on what the
target depends on, and then on the target (`of_eq_of_owner`), whatever its own
manifest says.
-/

namespace SolutionTree

namespace Project

variable {p : Project} {fs : FileSystem} {names : List String} {manifest : Manifest} {name : String}
  {kind : Target.Kind} {owner : Owner} {t u : Target}

/-- A runnable stands below its owner. -/
theorem Classifies.exists_owner {owner? : Option Owner}
    (h : p.Classifies fs names manifest name kind owner?) (hrun : kind.isRunnable = true) :
    ∃ owner, owner? = some owner ∧ names ≠ [] ∧ p.Owns fs names.dropLast owner := by
  cases h with
  | executable hexe => contradiction
  | test hexe hlast howns => exact ⟨_, rfl, List.ne_nil_of_mem (List.mem_of_getLast? hlast), howns⟩
  | script hexe hfirst hlast howns =>
    exact ⟨_, rfl, List.ne_nil_of_mem (List.mem_of_getLast? hlast), howns⟩
  | library hexe hfirst hlast => contradiction

/-- What a directory is called as an owner is the name of its target: both come of
one manifest and one text. -/
theorem Owns.name_eq (h : p.Owns fs names owner) (hu : p.Describes fs names u) :
    owner.name = u.name := by
  obtain ⟨manifest, hmanifest, hname, -⟩ := h.declares
  obtain rfl : manifest = u.manifest := Except.ok.inj (hmanifest.symm.trans hu.manifest)
  rw [hname, hu.classified.name_eq]

/-- What an owner declares is what its target declares. -/
theorem Owns.dependencies_eq (h : p.Owns fs names owner) (hu : p.Describes fs names u) :
    owner.dependencies = u.manifest.dependencies := by
  obtain ⟨manifest, hmanifest, -, hdependencies⟩ := h.declares
  obtain rfl : manifest = u.manifest := Except.ok.inj (hmanifest.symm.trans hu.manifest)
  exact hdependencies

/-- An owner is told by the manifest of its directory. -/
theorem Owns.unique {fs' : FileSystem} {owner' : Owner} (h : p.Owns fs names owner)
    (h' : p.Owns fs' names owner') (hsame : p.manifestOf fs names = p.manifestOf fs' names) :
    owner = owner' := by
  obtain ⟨manifest, hload, hname, hdependencies⟩ := h.declares
  obtain ⟨manifest', hload', hname', hdependencies'⟩ := h'.declares
  obtain rfl : manifest = manifest' := Except.ok.inj (hload.symm.trans (hsame.trans hload'))
  have hdir := h.relativeDir.trans h'.relativeDir.symm
  cases owner
  cases owner'
  simp_all

/-- A target whose text is that of the owner's directory comes of that directory. -/
theorem Owns.eq_of_relativeDir {above : List String} (h : p.Owns fs names owner)
    (hplain : ∀ name ∈ names, Path.isPlain name = true)
    (habove : ∀ name ∈ above, Path.isPlain name = true) (hu : p.Describes fs above u)
    (hdir : u.relativeDir = owner.relativeDir) : above = names := by
  refine Path.dirText_injective habove hplain ?_
  rw [← hu.relativeDir, hdir, h.relativeDir]

/-- A runnable of a scan has an owner, which is the directory above. -/
theorem exists_owner_of_scan {tree : FileTree} {catalog : Catalog}
    {supply supply' : Identifier.Supply}
    (htree : fs.node? p.sourceDir = .ok tree) (hwf : tree.WellFormed)
    (h : p.scan fs supply = (.ok catalog, supply')) (ht : t ∈ catalog.targets)
    (hrun : t.kind.isRunnable = true) :
    ∃ owner above, t.owner = some owner ∧ IsParent t.relativeDir owner.relativeDir ∧
      (∀ name ∈ above, Path.isPlain name = true) ∧ p.Owns fs above owner := by
  obtain ⟨names, hmakes, hdescribes⟩ := describes_of_scan htree hwf h ht
  obtain ⟨owner, howner, hne, howns⟩ := hdescribes.classified.exists_owner hrun
  have hplain := hmakes.isPlain hwf
  refine ⟨owner, names.dropLast, howner, ?_, ?_, howns⟩
  · rw [← parentDir_eq_iff, hdescribes.relativeDir, Target.parentDir_dirText hplain hne,
      howns.relativeDir]
  · exact fun name hname => hplain name (List.dropLast_subset names hname)

end Project

namespace Project

variable {project : Project} {fs : FileSystem} {tree : FileTree} {catalog : Catalog}
  {supply supply' : Identifier.Supply} {t u : Target}

/-- **A runnable depends on what its owner depends on**, and then on the owner. The
owner was made anew of the manifest above, and still the names come out canonical in
the same way, for they are declared in the same directory. -/
theorem of_eq_of_owner (htree : fs.node? project.sourceDir = .ok tree) (hwf : tree.WellFormed)
    (h : project.scan fs supply = (.ok catalog, supply')) (ht : t ∈ catalog.targets)
    (hrun : t.kind.isRunnable = true) (hu : u ∈ catalog.targets)
    (hbuilt : u.kind = .library ∨ u.kind = .executable)
    (habove : IsParent t.relativeDir u.relativeDir) :
    (Dependencies.ofCatalog catalog).of t.name =
      (Dependencies.ofCatalog catalog).of u.name ++ [u.name] := by
  obtain ⟨owner, names, howner, hparent, hplain, howns⟩ :=
    exists_owner_of_scan htree hwf h ht hrun
  obtain ⟨above, hmakes, hdescribes⟩ := describes_of_scan htree hwf h hu
  have hdir : u.relativeDir = owner.relativeDir :=
    habove.eq_parentDir.trans hparent.eq_parentDir.symm
  obtain rfl := howns.eq_of_relativeDir hplain (hmakes.isPlain hwf) hdescribes hdir
  have hnone : u.runnableOwner? = none := by
    rw [Target.runnableOwner?, Target.Kind.isRunnable_eq_false_iff.mpr hbuilt]
    rfl
  rw [Dependencies.of_ofCatalog ht, Dependencies.of_ofCatalog hu, Catalog.dependenciesOf,
    Catalog.dependenciesOf, Catalog.runnableOwner?_eq_some_iff.mpr ⟨hrun, howner⟩, hnone]
  dsimp only
  rw [howns.name_eq hdescribes, howns.dependencies_eq hdescribes, hdir]

/-! ### An executable and its test -/

/-- A library, and beside it a directory with a given manifest and with a test. The
manifests of the library and of the test name a directory and nothing. -/
def toolTree (manifest : ByteArray) : FileTree :=
  .dir [("core", .dir (targetEntries "DEPENDS := tool".toUTF8 [])),
    ("tool", .dir (targetEntries manifest
      [("test", .dir (targetEntries "DEPENDS := none".toUTF8 []))]))]

def toolFiles (manifest : ByteArray) : FileSystem where
  tree := .dir [("src", toolTree manifest)]

def tool : Project where
  root := ⟨"/"⟩
  sourceDir := ⟨"/src"⟩
  outputDir := ⟨"/bin"⟩
  intermediateDir := ⟨"/out"⟩
  settings := {}

def toolWalk : List Path := [⟨"/src"⟩, ⟨"/src/core"⟩, ⟨"/src/tool"⟩, ⟨"/src/tool/test"⟩]

theorem wellFormed_toolTree (manifest : ByteArray) : (toolTree manifest).WellFormed := by
  have htool : (FileTree.dir (targetEntries manifest
      [("test", .dir (targetEntries "DEPENDS := none".toUTF8 []))])).WellFormed := by
    refine .dir (by decide : ["build.mk", "m.cpp", "test"].Nodup) ?_ ?_
    · simpa [targetEntries] using (by decide)
    · simpa [targetEntries] using ⟨.file manifest, .file .empty, wellFormed_targetEntries _⟩
  refine .dir (by decide : ["core", "tool"].Nodup) ?_ ?_
  · simpa using (by decide)
  · simpa using ⟨wellFormed_targetEntries _, htool⟩

theorem node?_tool (manifest : ByteArray) :
    (toolFiles manifest).node? tool.sourceDir = .ok (toolTree manifest) := by rfl

def appManifest : ByteArray := "EXE := app\nDEPENDS := core core".toUTF8

theorem survey_tool : tool.survey (toolFiles appManifest) =
    .ok ⟨toolWalk.map (Scanner.inspect ⟨tool, []⟩ (toolFiles appManifest))⟩ := by
  have htool : walk (Scanner.keeps ⟨tool, []⟩) (tool.sourceDir.child "tool") (.dir (targetEntries
      appManifest [("test", .dir (targetEntries "DEPENDS := none".toUTF8 []))])) =
      [⟨"/src/tool"⟩, ⟨"/src/tool/test"⟩] := by
    rw [walk_dir_of_sorted (by decide), targetEntries, walkEntries, walkEntries, walkEntries,
      walk_targetEntries]
    decide +kernel
  have hwalk : walk (Scanner.keeps ⟨tool, []⟩) tool.sourceDir (toolTree appManifest) =
      toolWalk := by
    rw [toolTree, walk_dir_of_sorted (by decide), walkEntries, walkEntries, walk_targetEntries,
      htool]
    decide +kernel
  have hfits : ∀ dir ∈ toolWalk, FileSystem.refusal? dir = none := by decide +kernel
  exact survey_of_walk rfl (node?_tool appManifest) hwalk hfits

def coreRow : Row := ⟨"core", "core", .library, { dependencies := ["tool"] }, none⟩

def appRow : Row :=
  ⟨"tool", "app", .executable, { executable := "app", dependencies := ["core", "core"] }, none⟩

def appTestRow : Row :=
  ⟨"tool/test", "tool_test", .test, { dependencies := ["none"] },
    some ⟨"app", "tool", ["core", "core"]⟩⟩

def toolRows : List Row := [coreRow, appRow, appTestRow]

theorem scan_tool (supply : Identifier.Supply) :
    ∃ catalog supply', tool.scan (toolFiles appManifest) supply = (.ok catalog, supply') ∧
      catalog.targets.map Target.row = toolRows := by
  have hfound : (Survey.gather (toolWalk.map
      (Scanner.inspect ⟨tool, []⟩ (toolFiles appManifest)))).toOption.map (List.map Candidate.row) =
        some toolRows := by
    decide +kernel
  exact exists_catalog_of_rows survey_tool hfound (.refl _) (by decide) (by decide) supply

/-- The test of the executable depends on what that depends on, though its own
manifest says otherwise. -/
theorem of_eq_of_owner_tool :
    (toolFiles appManifest).node? tool.sourceDir = .ok (toolTree appManifest) ∧
    (toolTree appManifest).WellFormed ∧
    ∃ catalog supply', tool.scan (toolFiles appManifest) ⟨.nil⟩ = (.ok catalog, supply') ∧
      ∃ t ∈ catalog.targets, t.kind.isRunnable = true ∧ t.manifest.dependencies = ["none"] ∧
        ∃ u ∈ catalog.targets, u.kind = .executable ∧ IsParent t.relativeDir u.relativeDir ∧
          (Dependencies.ofCatalog catalog).of t.name =
            (Dependencies.ofCatalog catalog).of u.name ++ ["app"] := by
  obtain ⟨catalog, supply', hscan, hrows⟩ := scan_tool ⟨.nil⟩
  have hmem : ∀ row ∈ toolRows, ∃ t ∈ catalog.targets, t.row = row := by
    intro row hrow
    rw [← hrows] at hrow
    exact List.mem_map.mp hrow
  obtain ⟨t, ht, htest⟩ := hmem appTestRow (by decide)
  obtain ⟨u, hu, happ⟩ := hmem appRow (by decide)
  simp only [Target.row, appTestRow, Row.mk.injEq] at htest
  simp only [Target.row, appRow, Row.mk.injEq] at happ
  obtain ⟨hdir, -, hkind, hmanifest, -⟩ := htest
  obtain ⟨hdir', hname, hkind', -, -⟩ := happ
  have hrun : t.kind.isRunnable = true := by
    rw [hkind]
    rfl
  have hparent : IsParent t.relativeDir u.relativeDir := by
    rw [hdir, hdir']
    exact isParent_parentDir "tool/test"
  have hof := of_eq_of_owner (node?_tool appManifest) (wellFormed_toolTree appManifest)
    hscan ht hrun
    hu (.inr hkind') hparent
  rw [hname] at hof
  refine ⟨node?_tool _, wellFormed_toolTree _, catalog, supply', hscan, t, ht, hrun, ?_, u, hu,
    hkind',
    hparent, ?_⟩
  · rw [hmanifest]
  · rw [hof, hname]

end Project

end SolutionTree
