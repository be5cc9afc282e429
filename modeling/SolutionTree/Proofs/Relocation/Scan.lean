import SolutionTree.Proofs.Manifest.Load
import SolutionTree.Proofs.Relocation.Moved
import SolutionTree.Proofs.Relocation.Placement
import SolutionTree.Proofs.Scan.Targets

/-!
A scan at another root.

What a scan reads of one directory it reads of it at the other root: the files
(`read_relocates`), the manifest (`load_relocates`), and so what it finds there
(`inspect_relocates`). The walk comes to the same directories (`walk_under_eq_map`),
and the scan to the same targets, each of them moved to where the source tree stands
(`scan_relocates`).
-/

namespace SolutionTree

open SolutionTree.Path

/-! ### Names of files -/

section FileNames

variable {p q : Path} {name : String}

/-- The extension is a matter of the file name. -/
theorem Path.extension?_congr (h : p.fileName? = q.fileName?) : p.extension? = q.extension? := by
  rw [extension?, extension?, h]

theorem Path.stem?_congr (h : p.fileName? = q.fileName?) : p.stem? = q.stem? := by
  rw [stem?, stem?, h]

/-- A listing depends on where its directory is only in its path. -/
theorem Listing.ofEntries_congr {entries : List (String × FileTree)} (extensions : Extensions)
    (hp : p.text ≠ "") (hq : q.text ≠ "") (h : ∀ entry ∈ entries, isPlain entry.1 = true) :
    ofEntries extensions q entries = { ofEntries extensions p entries with path := q } := by
  have hkind : ∀ entry ∈ entries,
      extensions.kindOf (q.child entry.1) = extensions.kindOf (p.child entry.1) := by
    intro entry hm
    have hname : (q.child entry.1).fileName? = (p.child entry.1).fileName? := by
      rw [fileName?_child hq (h entry hm), fileName?_child hp (h entry hm)]
    rw [Extensions.kindOf, Extensions.kindOf, extension?_congr hname]
  have hnames : ∀ kind, namesOf extensions q kind entries = namesOf extensions p kind entries := by
    intro kind
    have hfilter : entries.filter (fun entry =>
          entry.2.isFile && extensions.kindOf (q.child entry.1) == kind) =
        entries.filter fun entry =>
          entry.2.isFile && extensions.kindOf (p.child entry.1) == kind := by
      apply List.filter_congr
      intro entry hm
      rw [hkind entry hm]
    simp only [namesOf, hfilter]
  simp only [ofEntries, hnames]

end FileNames

/-! ### Walks -/

/-- Branches in which all paths are renamed stay in the order of their names. -/
theorem inNameOrder_map (f : Path → Path) (branches : List (String × List Path)) :
    inNameOrder (branches.map fun branch => (branch.1, branch.2.map f)) =
      (inNameOrder branches).map f := by
  have hsort : (branches.map fun branch => (branch.1, branch.2.map f)).mergeSort
        (fun a b => decide (a.1 ≤ b.1)) =
      (branches.mergeSort fun a b => decide (a.1 ≤ b.1)).map
        fun branch => (branch.1, branch.2.map f) := by
    symm
    apply List.map_mergeSort
    intro a _ b _
    rfl
  rw [inNameOrder, hsort, inNameOrder, List.flatMap_map, List.map_flatMap]

/-- **A walk from another root** comes to the same directories, under their paths
there. -/
theorem walk_under_eq_map {keep keep' : Path → Bool} {root root' : Path} {f : Path → Path}
    {tree : FileTree} (hwf : tree.WellFormed)
    (hf : ∀ names, (∀ name ∈ names, isPlain name = true) → f (root.under names) = root'.under names)
    (hkeep : ∀ names, (∀ name ∈ names, isPlain name = true) →
      keep' (root'.under names) = keep (root.under names))
    {above : List String} (habove : ∀ name ∈ above, isPlain name = true) :
    walk keep' (root'.under above) tree = (walk keep (root.under above) tree).map f := by
  induction hwf generalizing above with
  | file content => rfl
  | @dir entries hnodup hplain hentries ih =>
    have hbranch : ∀ entry ∈ entries,
        (if keep' ((root'.under above).child entry.1) then
            walk keep' ((root'.under above).child entry.1) entry.2 else []) =
          (if keep ((root.under above).child entry.1) then
            walk keep ((root.under above).child entry.1) entry.2 else []).map f := by
      intro entry hm
      have hnext : ∀ name ∈ above ++ [entry.1], isPlain name = true :=
        List.forall_mem_append.mpr ⟨habove, by simpa using hplain entry hm⟩
      have hchild : ∀ r : Path, (r.under above).child entry.1 = r.under (above ++ [entry.1]) :=
        fun r => (under_append r above [entry.1]).symm
      rw [hchild, hchild, hkeep _ hnext]
      split
      · exact ih entry hm hnext
      · rfl
    have hbranches : walkEntries keep' (root'.under above) entries =
        (walkEntries keep (root.under above) entries).map
          fun branch => (branch.1, branch.2.map f) := by
      rw [walkEntries_eq_map, walkEntries_eq_map, List.map_map]
      apply List.map_congr_left
      intro entry hm
      rw [hbranch entry hm]
      rfl
    rw [walk, walk, hbranches, inNameOrder_map, List.map_cons, hf above habove]

/-! ### Files that are read -/

namespace FileSystem

variable {fs fs' : FileSystem} {p q : Path} {e : IoError}

/-- A path that is refused leads nowhere, whatever stands in the tree. -/
theorem node?_of_refusal? (h : refusal? p = some e) : fs.node? p = .error e := by
  simp [node?, position, h, Except.map]

/-- A path that is refused is not reported as missing. -/
theorem ne_notFound_of_refusal? (hp : p.text ≠ "") (h : refusal? p = some e) : e ≠ .notFound := by
  rintro rfl
  unfold refusal? misspelling? at h
  rw [if_neg hp] at h
  by_cases hnul : '\x00' ∈ p.text.toList
  · simp [hnul] at h
  · by_cases hfits : lengthFits p.text.utf8ByteSize = true
    · simp [hnul, hfits] at h
    · simp [hnul, hfits] at h

end FileSystem

/-- The owner of a runnable is told by the manifest of the directory above it. -/
theorem Scanner.ownerOf_eq_ok_iff {s : Scanner} {fs : FileSystem} {relativeDir : String}
    {owner : Owner} :
    s.ownerOf fs relativeDir = .ok owner ↔
      ∃ m, s.loadManifest fs (s.project.sourceDir.descend (Target.parentDir relativeDir)) = .ok m ∧
        owner = ⟨s.targetName (Target.parentDir relativeDir) m, Target.parentDir relativeDir,
          m.dependencies⟩ := by
  unfold Scanner.ownerOf
  dsimp only
  cases s.loadManifest fs (s.project.sourceDir.descend (Target.parentDir relativeDir)) with
  | error fault => simp
  | ok m => simp [eq_comm]

/-- The candidate of a directory, when its manifest and, for a runnable, its owner
are there. -/
theorem Scanner.candidateOf_of_load {s : Scanner} {fs : FileSystem} {dir : Path} {m : Manifest}
    (files : Listing) (owner : Option Owner) (hload : s.loadManifest fs dir = .ok m)
    (hrunnable : (Target.classify s.runnableNames (s.textOf dir) m).isRunnable = true →
      ∃ o, s.ownerOf fs (s.textOf dir) = .ok o ∧ owner = some o)
    (hother : (Target.classify s.runnableNames (s.textOf dir) m).isRunnable = false →
      owner = none) :
    s.candidateOf fs dir files =
      .ok ⟨s.textOf dir, s.targetName (s.textOf dir) m,
        Target.classify s.runnableNames (s.textOf dir) m, files, m, owner⟩ := by
  unfold candidateOf
  simp only [hload]
  cases hkind : (Target.classify s.runnableNames (s.textOf dir) m).isRunnable with
  | true =>
    obtain ⟨o, ho, rfl⟩ := hrunnable hkind
    simp only [↓reduceIte, ho]
    rfl
  | false =>
    obtain rfl := hother hkind
    rfl

/-! ### One directory at two roots -/

/-- Whether the same of the directories of a source tree, and of the manifests in
them, can be looked up by their paths at two roots. -/
def FitAlike (settings : Settings) (n : LayoutNames) (tree : FileTree) (root root' : Path) : Prop :=
  ∀ names entries, tree.find? (n.source ++ names) = some (.dir entries) →
    (root.Fits (n.source ++ names) ↔ root'.Fits (n.source ++ names)) ∧
      (root.Fits (n.source ++ names ++ [settings.layout.manifest]) ↔
        root'.Fits (n.source ++ names ++ [settings.layout.manifest]))

theorem FitAlike.symm {settings : Settings} {n : LayoutNames} {tree : FileTree} {root root' : Path}
    (h : FitAlike settings n tree root root') : FitAlike settings n tree root' root :=
  fun names entries hdir => ⟨(h names entries hdir).1.symm, (h names entries hdir).2.symm⟩

namespace Relocates

variable {settings : Settings} {n : LayoutNames} {tree : FileTree} {fs fs' : FileSystem}
  {root root' : Path} {names : List String} {entries : List (String × FileTree)}

section Directory

variable (h : Relocates settings n tree fs fs' root root')
include h

/-- What stands below the source directory of a project at a root, by its place. -/
theorem sourceDir_under (r : Path) (hnames : ∀ name ∈ names, isPlain name = true) :
    (n.projectAt settings r.place).sourceDir.under names =
      ofPlace (r.place ++ (n.source ++ names)) := by
  have hsource := isPlain_place_append r h.layout.sourceDir.isPlain
  rw [← List.append_assoc]
  exact under_ofPlace (fun s hs => isSegment_of_isPlain (hsource s hs))
    fun s hs => isSegment_of_isPlain (hnames s hs)

theorem isPlain_below (hdir : tree.find? (n.source ++ names) = some (.dir entries)) :
    (∀ name ∈ n.source ++ names, isPlain name = true) ∧ (∀ name ∈ names, isPlain name = true) ∧
      ∀ entry ∈ entries, isPlain entry.1 = true := by
  have hplain := h.wellFormed.isPlain_of_find? hdir
  refine ⟨hplain, fun name hm => hplain name (List.mem_append_right _ hm), ?_⟩
  cases h.wellFormed.of_find? hdir with
  | dir hnodup hentries hbelow => exact hentries

/-- A directory of the source tree, by its path. -/
theorem node?_sourceDir_under (hdir : tree.find? (n.source ++ names) = some (.dir entries))
    (hfits : root.Fits (n.source ++ names)) :
    fs.node? ((n.projectAt settings root.place).sourceDir.under names) = .ok (.dir entries) := by
  obtain ⟨hplain, hnames, -⟩ := h.isPlain_below hdir
  rw [h.sourceDir_under root hnames,
    node?_below_of_fits h.isAbsolute h.node hplain hfits, FileSystem.seek_eq_ok_iff hplain]
  exact hdir

variable (hfit : FitAlike settings n tree root root')
include hfit

/-- The files of a directory are read alike. -/
theorem read_relocates {extensions : Extensions} {files : Listing}
    (hdir : tree.find? (n.source ++ names) = some (.dir entries))
    (hread : Listing.read fs extensions ((n.projectAt settings root.place).sourceDir.under names) =
      .ok files) :
    Listing.read fs' extensions ((n.projectAt settings root'.place).sourceDir.under names) =
      .ok { files with path := (n.projectAt settings root'.place).sourceDir.under names } := by
  obtain ⟨-, hnames, hentries⟩ := h.isPlain_below hdir
  have hfits : root.Fits (n.source ++ names) := by
    cases hnode : fs.node? ((n.projectAt settings root.place).sourceDir.under names) with
    | error e =>
      rw [Listing.read, FileSystem.readDir, hnode] at hread
      contradiction
    | ok node =>
      rw [h.sourceDir_under root hnames] at hnode
      exact fits_of_node? hnode
  rw [Listing.read_of_node? (h.node?_sourceDir_under hdir hfits)] at hread
  rw [Listing.read_of_node?
      (h.symm.node?_sourceDir_under hdir ((hfit names entries hdir).1.mp hfits)),
    ← Except.ok.inj hread]
  exact congrArg Except.ok (Listing.ofEntries_congr extensions
    (text_under_ne (text_ofPlace_ne (root.place ++ n.source)) hnames)
    (text_under_ne (text_ofPlace_ne (root'.place ++ n.source)) hnames) hentries)

variable (hout : ∃ name ∈ n.output, IsSolid name)
include hout

/-- **The manifest of a directory is read alike.** It is found or missed by the same
name, it has the same bytes, and what it makes of `$(ROOT)` does not tell the root.
-/
theorem load_relocates {m : Manifest} (hdir : tree.find? (n.source ++ names) = some (.dir entries))
    (hload : Manifest.load fs ((n.projectAt settings root.place).sourceDir.under names)
      settings.layout.manifest (n.projectAt settings root.place).includeBase = .ok m) :
    Manifest.load fs' ((n.projectAt settings root'.place).sourceDir.under names)
      settings.layout.manifest (n.projectAt settings root'.place).includeBase = .ok m := by
  obtain ⟨hplain, hnames, -⟩ := h.isPlain_below hdir
  have hbelow : ∀ name ∈ n.source ++ names ++ [settings.layout.manifest], isPlain name = true :=
    List.forall_mem_append.mpr ⟨hplain, by simpa using h.layout.manifest⟩
  have hpath : ∀ r : Path, ((n.projectAt settings r.place).sourceDir.under names).child
      settings.layout.manifest =
        ofPlace (r.place ++ (n.source ++ names ++ [settings.layout.manifest])) := by
    intro r
    rw [h.sourceDir_under r hnames, (spells_ofPlace _).child_eq
      (fun s hs => isSegment_of_isPlain (isPlain_place_append r hplain s hs))
      (isSegment_of_isPlain h.layout.manifest)]
    simp
  -- A manifest that is refused is unreadable, and not missing.
  have hfits : root.Fits (n.source ++ names ++ [settings.layout.manifest]) := by
    cases hrefusal : FileSystem.refusal?
        (ofPlace (root.place ++ (n.source ++ names ++ [settings.layout.manifest]))) with
    | none => exact hrefusal
    | some e =>
      have hread : fs.readText (ofPlace (root.place ++ (n.source ++ names ++
          [settings.layout.manifest]))) = .error e := by
        rw [FileSystem.readText, FileSystem.readBytes, FileSystem.node?_of_refusal? hrefusal]
      rw [Manifest.load_eq_ok_iff, hpath, hread] at hload
      rcases hload with ⟨hmissing, -⟩ | ⟨text, htext, -⟩
      · exact absurd (Except.error.inj hmissing)
          (FileSystem.ne_notFound_of_refusal? (text_ofPlace_ne _) hrefusal)
      · contradiction
  have hfits' := (hfit names entries hdir).2.mp hfits
  have hread : fs.readText (ofPlace (root.place ++ (n.source ++ names ++
      [settings.layout.manifest]))) =
        fs'.readText (ofPlace (root'.place ++ (n.source ++ names ++
          [settings.layout.manifest]))) := by
    apply FileSystem.readText_congr
    rw [node?_below_of_fits h.isAbsolute h.node hbelow hfits,
      node?_below_of_fits h.isAbsolute' h.node' hbelow hfits']
  rw [Manifest.load_eq_ok_iff, hpath] at hload ⊢
  rw [← hread]
  rcases hload with hmissing | ⟨text, htext, hparse⟩
  · exact .inl hmissing
  · obtain ⟨content, hnode, hdecoded⟩ := FileSystem.readText_eq_ok htext
    have hclear := h.includes names content text
      (find?_of_node? h.isAbsolute h.node hbelow hnode) hdecoded
    exact .inr ⟨text, htext, Manifest.parseAt_relocates hclear hout _ hparse⟩

end Directory

/-! ### What a scan finds in a directory -/

def scannerAt (n : LayoutNames) (settings : Settings) (excludes : List Pattern) (r : Path) :
    Scanner :=
  ⟨n.projectAt settings r.place, excludes⟩

variable {excludes : List Pattern}

/-- A directory has the same text at all roots, which is why nothing that is made of
the text knows the root. -/
theorem textOf_scannerAt (n : LayoutNames) (settings : Settings) (excludes : List Pattern)
    (r : Path) (hnames : ∀ name ∈ names, isPlain name = true) :
    (scannerAt n settings excludes r).textOf
      ((n.projectAt settings r.place).sourceDir.under names) = dirText names :=
  textBelow_under hnames (text_ofPlace_ne (r.place ++ n.source))

/-- Exclude patterns see the text of a directory alone. -/
theorem keeps_scannerAt (r r' : Path) (hnames : ∀ name ∈ names, isPlain name = true) :
    (scannerAt n settings excludes r').keeps
        ((n.projectAt settings r'.place).sourceDir.under names) =
      (scannerAt n settings excludes r).keeps
        ((n.projectAt settings r.place).sourceDir.under names) := by
  rw [Scanner.keeps, Scanner.keeps, textOf_scannerAt _ _ _ r hnames,
    textOf_scannerAt _ _ _ r' hnames]
  rfl

section Found

variable (h : Relocates settings n tree fs fs' root root')
include h

/-- The source directory has its own last name at every root. -/
theorem rootTargetName_projectAt (r : Path) :
    (n.projectAt settings r.place).rootTargetName = n.source.getLast?.getD "root" := by
  obtain ⟨above, last, hsource⟩ :=
    (List.eq_nil_or_concat' n.source).resolve_left h.layout.sourceDir.ne_nil
  have hplain := isPlain_place_append r h.layout.sourceDir.isPlain
  rw [hsource, ← List.append_assoc] at hplain
  have hlast : isPlain last = true := hplain last (by simp)
  have hchild : ofPlace (r.place ++ n.source) = (ofPlace (r.place ++ above)).child last := by
    rw [hsource, ← List.append_assoc]
    exact ((spells_ofPlace _).child_eq
      (fun s hs => isSegment_of_isPlain (hplain s (List.mem_append_left _ hs)))
      (isSegment_of_isPlain hlast)).symm
  rw [Project.rootTargetName, LayoutNames.projectAt, hchild,
    fileName?_child (text_ofPlace_ne _) hlast, hsource, List.getLast?_concat]

theorem targetName_scannerAt (relativeDir : String) (m : Manifest) :
    (scannerAt n settings excludes root').targetName relativeDir m =
      (scannerAt n settings excludes root).targetName relativeDir m := by
  rw [Scanner.targetName, Scanner.targetName, scannerAt, scannerAt, h.rootTargetName_projectAt,
    h.rootTargetName_projectAt]

variable (hfit : FitAlike settings n tree root root') (hout : ∃ name ∈ n.output, IsSolid name)
include hfit hout

/-- The owner of a runnable is the same at both roots, as the manifest above it is.
-/
theorem ownerOf_relocates {owner : Owner}
    (hdir : tree.find? (n.source ++ names) = some (.dir entries))
    (howner : (scannerAt n settings excludes root).ownerOf fs (dirText names) = .ok owner) :
    (scannerAt n settings excludes root').ownerOf fs' (dirText names) = .ok owner := by
  obtain ⟨-, hnames, -⟩ := h.isPlain_below hdir
  have habove : ∀ name ∈ names.dropLast, isPlain name = true :=
    fun name hm => hnames name (List.dropLast_subset names hm)
  have hparent : Target.parentDir (dirText names) = dirText names.dropLast := by
    by_cases hne : names = []
    · subst hne
      decide
    · exact Target.parentDir_dirText hnames hne
  obtain ⟨entries', hdir'⟩ : ∃ entries', tree.find? (n.source ++ names.dropLast) =
      some (.dir entries') := by
    rcases List.eq_nil_or_concat' names with rfl | ⟨above, last, rfl⟩
    · exact ⟨entries, hdir⟩
    · rw [← List.append_assoc] at hdir
      rw [List.dropLast_concat]
      exact FileTree.exists_dir_of_find?_concat hdir
  have hdescend : ∀ r : Path, (n.projectAt settings r.place).sourceDir.descend
      (dirText names.dropLast) = (n.projectAt settings r.place).sourceDir.under names.dropLast :=
    fun r => descend_dirText habove
  rw [Scanner.ownerOf_eq_ok_iff, hparent] at howner ⊢
  obtain ⟨m, hload, rfl⟩ := howner
  refine ⟨m, ?_, ?_⟩
  · rw [scannerAt, hdescend] at hload ⊢
    exact h.load_relocates hfit hout hdir' hload
  · rw [h.targetName_scannerAt]

/-- A directory that makes a target at one root makes the same one at the other,
moved. -/
theorem candidateOf_relocates {files : Listing} {c : Candidate}
    (hdir : tree.find? (n.source ++ names) = some (.dir entries))
    (hc : (scannerAt n settings excludes root).candidateOf fs
      ((n.projectAt settings root.place).sourceDir.under names) files = .ok c) :
    (scannerAt n settings excludes root').candidateOf fs'
        ((n.projectAt settings root'.place).sourceDir.under names)
        { files with path := (n.projectAt settings root'.place).sourceDir.under names } =
      .ok (c.movedTo (n.projectAt settings root'.place).sourceDir) := by
  obtain ⟨-, hnames, -⟩ := h.isPlain_below hdir
  have htext := textOf_scannerAt n settings excludes root hnames
  have htext' := textOf_scannerAt n settings excludes root' hnames
  obtain ⟨m, owner, hload, rfl, hrunnable, hother⟩ := Scanner.candidateOf_eq_ok hc
  rw [htext] at hrunnable hother ⊢
  have hload' : (scannerAt n settings excludes root').loadManifest fs'
      ((n.projectAt settings root'.place).sourceDir.under names) = .ok m :=
    h.load_relocates hfit hout hdir hload
  rw [Scanner.candidateOf_of_load _ owner hload', htext', h.targetName_scannerAt,
    Candidate.movedTo, descend_dirText hnames]
  · rfl
  · intro hkind
    rw [htext'] at hkind ⊢
    obtain ⟨o, ho, rfl⟩ := hrunnable hkind
    exact ⟨o, h.ownerOf_relocates hfit hout hdir ho, rfl⟩
  · intro hkind
    rw [htext'] at hkind
    exact hother hkind

/-- **What is found in a directory** is found there at the other root, moved to it.
-/
theorem inspect_relocates {finding : Finding}
    (hdir : tree.find? (n.source ++ names) = some (.dir entries))
    (hfinding : (scannerAt n settings excludes root).inspect fs
      ((n.projectAt settings root.place).sourceDir.under names) = .ok finding) :
    (scannerAt n settings excludes root').inspect fs'
        ((n.projectAt settings root'.place).sourceDir.under names) =
      .ok (finding.movedTo (n.projectAt settings root'.place).sourceDir) := by
  obtain ⟨-, hnames, -⟩ := h.isPlain_below hdir
  obtain ⟨files, hread, hfound⟩ := Scanner.inspect_eq_ok hfinding
  have hread' : Listing.read fs'
      (scannerAt n settings excludes root').project.settings.scan.extensions
        ((n.projectAt settings root'.place).sourceDir.under names) =
      .ok { files with path := (n.projectAt settings root'.place).sourceDir.under names } :=
    h.read_relocates hfit hdir hread
  have hsame : Listing.hasSources
      { files with path := (n.projectAt settings root'.place).sourceDir.under names } =
        files.hasSources := rfl
  unfold Scanner.inspect
  rw [hread']
  dsimp only
  rcases hfound with ⟨hsources, c, hc, rfl⟩ | ⟨hnone, rfl⟩
  · rw [hsame, if_pos hsources, h.candidateOf_relocates hfit hout hdir hc]
    rfl
  · rw [hsame, hnone, textOf_scannerAt _ _ _ root hnames, textOf_scannerAt _ _ _ root' hnames]
    rfl

end Found

/-! ### The whole source tree -/

/-- If each directory gives what another one gives, but for a change, then so do all
of them. -/
theorem map_ok_of_forall {dirs : List Path} {findings : List Finding} {f : Path → Path}
    {change : Finding → Finding} {look look' : Path → Except Fault Finding}
    (h : ∀ dir ∈ dirs, ∀ finding, look dir = .ok finding → look' (f dir) = .ok (change finding))
    (hfindings : dirs.map look = findings.map .ok) :
    (dirs.map f).map look' = (findings.map change).map .ok := by
  induction dirs generalizing findings with
  | nil =>
    obtain rfl : findings = [] := by simpa using hfindings.symm
    rfl
  | cons dir dirs ih =>
    cases findings with
    | nil => simp at hfindings
    | cons finding findings =>
      obtain ⟨hdir, hdirs⟩ := List.cons.inj hfindings
      have ⟨hfirst, hrest⟩ := List.forall_mem_cons.mp h
      rw [List.map_cons, List.map_cons, hfirst finding hdir, ih hrest hdirs]
      rfl

/-- The directory below the source directory at one root that stands for one at the
other. -/
def relocated (n : LayoutNames) (settings : Settings) (r r' dir : Path) : Path :=
  (n.projectAt settings r'.place).sourceDir.descend
    ((n.projectAt settings r.place).sourceDir.textBelow dir)

theorem relocated_under (r r' : Path) (hnames : ∀ name ∈ names, isPlain name = true) :
    relocated n settings r r' ((n.projectAt settings r.place).sourceDir.under names) =
      (n.projectAt settings r'.place).sourceDir.under names := by
  have htext : (n.projectAt settings r.place).sourceDir.textBelow
      ((n.projectAt settings r.place).sourceDir.under names) = dirText names :=
    textOf_scannerAt n settings [] r hnames
  rw [relocated, htext]
  exact descend_dirText hnames

section Tree

variable (h : Relocates settings n tree fs fs' root root')
  (hsource : tree.find? n.source = some (.dir entries))
include h hsource

/-- The walk comes to the directories below the other root that stand for those
below the one. -/
theorem walk_relocates :
    walk (scannerAt n settings excludes root').keeps (n.projectAt settings root'.place).sourceDir
        (.dir entries) =
      (walk (scannerAt n settings excludes root).keeps
        (n.projectAt settings root.place).sourceDir (.dir entries)).map
          (relocated n settings root root') :=
  walk_under_eq_map (h.wellFormed.of_find? hsource)
    (fun _ hnames => relocated_under root root' hnames)
    (fun _ hnames => keeps_scannerAt root root' hnames) (List.forall_mem_nil _)

/-- The directories that a scan looks at are those of the source tree. -/
theorem find?_of_mem_walk_source {dir : Path}
    (hdir : dir ∈ walk (scannerAt n settings excludes root).keeps
      (n.projectAt settings root.place).sourceDir (.dir entries)) :
    ∃ names inner, dir = (n.projectAt settings root.place).sourceDir.under names ∧
      tree.find? (n.source ++ names) = some (.dir inner) := by
  obtain ⟨names, inner, hfind, -, rfl⟩ := (mem_walk_iff (h.wellFormed.of_find? hsource)).mp hdir
  refine ⟨names, inner, rfl, ?_⟩
  rw [FileTree.find?_append, hsource]
  exact hfind

variable (hfit : FitAlike settings n tree root root')
include hfit

theorem node?_source_relocates
    (hnode : fs.node? (n.projectAt settings root.place).sourceDir = .ok (.dir entries)) :
    fs'.node? (n.projectAt settings root'.place).sourceDir = .ok (.dir entries) := by
  have hfind : tree.find? (n.source ++ []) = some (.dir entries) := by
    rwa [List.append_nil]
  have hfits : root.Fits (n.source ++ []) := by
    rw [List.append_nil]
    exact fits_of_node? hnode
  have hmoved := h.symm.node?_sourceDir_under hfind ((hfit [] entries hfind).1.mp hfits)
  rwa [under_nil] at hmoved

/-- If all directories that a scan looks at can be looked up at one root, they can
be at the other. -/
theorem fits_relocates
    (hfits : ∀ dir ∈ walk (scannerAt n settings excludes root).keeps
      (n.projectAt settings root.place).sourceDir (.dir entries), FileSystem.refusal? dir = none) :
    ∀ dir ∈ walk (scannerAt n settings excludes root').keeps
      (n.projectAt settings root'.place).sourceDir (.dir entries),
      FileSystem.refusal? dir = none := by
  rw [h.walk_relocates hsource]
  intro dir hdir
  obtain ⟨dir, hmem, rfl⟩ := List.mem_map.mp hdir
  have hrefusal := hfits dir hmem
  obtain ⟨names, inner, rfl, hfind⟩ := h.find?_of_mem_walk_source hsource hmem
  obtain ⟨-, hnames, -⟩ := h.isPlain_below hfind
  rw [h.sourceDir_under root hnames] at hrefusal
  rw [relocated_under root root' hnames, h.sourceDir_under root' hnames]
  exact (hfit names inner hfind).1.mp hrefusal

variable (hout : ∃ name ∈ n.output, IsSolid name)
include hout

/-- What is found in all directories is found at the other root, and each finding is
moved. -/
theorem findings_relocates {findings : List Finding}
    (hfindings : (walk (scannerAt n settings excludes root).keeps
      (n.projectAt settings root.place).sourceDir (.dir entries)).map
        ((scannerAt n settings excludes root).inspect fs) = findings.map .ok) :
    (walk (scannerAt n settings excludes root').keeps
      (n.projectAt settings root'.place).sourceDir (.dir entries)).map
        ((scannerAt n settings excludes root').inspect fs') =
      (findings.map (Finding.movedTo (n.projectAt settings root'.place).sourceDir)).map .ok := by
  rw [h.walk_relocates hsource]
  apply map_ok_of_forall _ hfindings
  intro dir hdir finding hfinding
  obtain ⟨names, inner, rfl, hfind⟩ := h.find?_of_mem_walk_source hsource hdir
  obtain ⟨-, hnames, -⟩ := h.isPlain_below hfind
  rw [relocated_under root root' hnames]
  exact h.inspect_relocates hfit hout hfind hfinding

/-- **A survey that went well goes well at the other root**, and finds the same
there. -/
theorem surveyed_relocates {candidates : List Candidate}
    (hs : (scannerAt n settings excludes root).Surveyed fs (.dir entries) candidates) :
    (scannerAt n settings excludes root').Surveyed fs' (.dir entries)
      (candidates.map (Candidate.movedTo (n.projectAt settings root'.place).sourceDir)) where
  patterns := hs.patterns
  node := h.node?_source_relocates hsource hfit hs.node
  fits := h.fits_relocates hsource hfit hs.fits
  found := by
    obtain ⟨findings, hfindings, -⟩ := Survey.candidates_eq_ok hs.found
    have hfound : Survey.candidates ⟨findings.map .ok⟩ = .ok candidates := by
      rw [← hfindings]
      exact hs.found
    have hmoved := h.findings_relocates hsource hfit hout hfindings
    exact (congrArg (fun found => Survey.candidates ⟨found⟩) hmoved).trans
      (Survey.candidates_movedTo hfound)

/-- **A scan that goes well goes well at the other root**, and has the same targets,
each of them moved to where the source tree stands there. -/
theorem scan_relocates {catalog : Catalog} {supply supply' : Identifier.Supply}
    (hnode : fs.node? (n.projectAt settings root.place).sourceDir = .ok (.dir entries))
    (hscan : (n.projectAt settings root.place).scan fs supply = (.ok catalog, supply')) :
    ∃ catalog', (n.projectAt settings root'.place).scan fs' supply = (.ok catalog', supply') ∧
      catalog'.targets =
        catalog.targets.map (Target.movedTo (n.projectAt settings root'.place).sourceDir) := by
  obtain ⟨⟨project, excludes⟩, candidates, rfl, hs, henroll⟩ :=
    (Project.scan_eq_ok_iff hnode).mp hscan
  obtain ⟨catalog', henroll', htargets⟩ := enroll_movedTo (d := .empty) rfl henroll
  refine ⟨catalog', ?_, htargets⟩
  exact (Project.scan_eq_ok_iff (h.node?_source_relocates hsource hfit hnode)).mpr
    ⟨scannerAt n settings excludes root', _, rfl, h.surveyed_relocates hsource hfit hout hs,
      henroll'⟩

end Tree

end Relocates

end SolutionTree
