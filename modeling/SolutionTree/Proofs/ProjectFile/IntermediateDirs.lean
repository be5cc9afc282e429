import SolutionTree.Proofs.Path.Distinct
import SolutionTree.Proofs.ProjectFile.Places
import SolutionTree.Proofs.Report

/-!
Intermediate directories of targets are told apart.

The text of an intermediate directory leads from the output directory to the names
of a configuration and of a target's directory below the project's intermediate
directory (`pieces_intermediateDir`). Neither end is normalized, and the text may
lead astray, but never to one place for two targets or for two configurations
(`intermediateDir_ne_of_scan`). A backslash in a name is written as a slash, so that
two directories with backslashes could not be told apart.
-/

namespace SolutionTree

open SolutionTree.Path

/-- A text whose last piece is not empty gets a slash. -/
theorem withTrailingSlash_of_getLast? {s last : String}
    (h : (Text.pieces '/' s).getLast? = some last) (hne : last ≠ "") :
    withTrailingSlash s = s ++ "/" := by
  have hempty : s ≠ "" := by
    rintro rfl
    rw [Text.pieces_of_notMem (by simp)] at h
    exact hne (Option.some.inj h).symm
  have hslash : s.toList.getLast? ≠ some '/' := by
    intro hslash
    obtain ⟨front, -, hsegments⟩ := exists_front_of_getLast?_slash (p := ⟨s⟩) hslash
    have hpieces : Text.pieces '/' s = Text.pieces '/' front ++ [""] := hsegments
    rw [hpieces, List.getLast?_concat] at h
    exact hne (Option.some.inj h).symm
  simp [withTrailingSlash, hempty, hslash]

theorem Configuration.dirName_injective {c c' : Configuration} (h : c.dirName = c'.dirName) :
    c = c' := by
  revert h
  cases c <;> cases c' <;> decide

namespace Project

variable {p : Project} {t t' : Target} {c c' : Configuration} {names names' : List String}

theorem isPlain_below (c : Configuration) (h : ∀ name ∈ names, isPlain name = true) :
    ∀ name ∈ c.dirName :: names, isPlain name = true :=
  List.forall_mem_cons.mpr ⟨isPlain_dirName c, h⟩

/-- The pieces of an intermediate directory, and the empty one of the slash at its
end. -/
theorem pieces_intermediateDir (hdir : t.relativeDir = dirText names)
    (hplain : ∀ name ∈ names, isPlain name = true) (hback : ∀ name ∈ names, '\\' ∉ name.toList)
    (c : Configuration) :
    Text.pieces '/' (BuildSettings.ofTarget p t c).intermediateDir =
      relativeSegments (p.intermediateDir.frontSegments.flatMap (Text.pieces '\\') ++
        c.dirName :: names) (Text.pieces '/' p.outputDir.slashed) ++ [""] := by
  have hbelow := isPlain_below c hplain
  have hclear : ∀ name ∈ c.dirName :: names, '\\' ∉ name.toList :=
    List.forall_mem_cons.mpr ⟨notMem_dirName c, hback⟩
  have hne : c.dirName :: names ≠ [] := List.cons_ne_nil _ _
  have hpath : p.intermediateOfTarget c t.relativeDir =
      p.intermediateDir.under (c.dirName :: names) := by
    rw [intermediateOfTarget, intermediateOf, hdir, descend_dirText hplain, under_cons]
  have hpieces := pieces_relative (p.intermediateDir.under (c.dirName :: names)) p.outputDir
  rw [pieces_slashed_under hne hbelow hclear] at hpieces
  have hlast : (Text.pieces '/' ((p.intermediateDir.under (c.dirName :: names)).relative
      p.outputDir)).getLast? = some ((c.dirName :: names).getLast hne) := by
    rw [hpieces, getLast?_relativeSegments _ (List.append_ne_nil_of_right_ne_nil _ hne),
      List.getLast?_append_of_ne_nil _ hne, List.getLast?_eq_some_getLast hne]
  have hfilled := ne_empty_of_isPlain (hbelow _ (List.getLast_mem hne))
  simp only [BuildSettings.ofTarget]
  rw [hpath, withTrailingSlash_of_getLast? hlast hfilled, ← hpieces]
  exact Text.pieces_append_singleton _

/-- An intermediate directory tells the configuration and the directory of its
target. -/
theorem eq_of_intermediateDir_eq (hdir : t.relativeDir = dirText names)
    (hdir' : t'.relativeDir = dirText names') (hplain : ∀ name ∈ names, isPlain name = true)
    (hplain' : ∀ name ∈ names', isPlain name = true) (hback : ∀ name ∈ names, '\\' ∉ name.toList)
    (hback' : ∀ name ∈ names', '\\' ∉ name.toList)
    (h : (BuildSettings.ofTarget p t c).intermediateDir =
      (BuildSettings.ofTarget p t' c').intermediateDir) :
    c = c' ∧ names = names' := by
  have hdown : ∀ {c : Configuration} {names : List String},
      (∀ name ∈ names, isPlain name = true) → ".." ∉ c.dirName :: names := by
    intro c names hnames hmem
    exact (goesDown_of_isPlain (isPlain_below c hnames _ hmem)).2.2 rfl
  have hpieces := congrArg (Text.pieces '/') h
  rw [pieces_intermediateDir hdir hplain hback, pieces_intermediateDir hdir' hplain' hback',
    List.append_cancel_right_eq] at hpieces
  have hbelow := eq_of_relativeSegments_append_eq _ (hdown hplain) (hdown hplain')
    (List.cons_ne_nil _ _) (List.cons_ne_nil _ _) hpieces
  obtain ⟨hname, hnames⟩ := List.cons.inj hbelow
  exact ⟨Configuration.dirName_injective hname, hnames⟩

variable {fs : FileSystem} {tree : FileTree} {catalog : Catalog}
  {supply supply' : Identifier.Supply} {s s' : Solution} {m m' : Member} {b b' : BuildSettings}

/-- **No two builds share an intermediate directory.** However the output directory
and the intermediate directory are spelled, two targets of a scan, or two
configurations of one target, have intermediate directories of different texts, if
no name on the way to them has a backslash. -/
theorem intermediateDir_ne_of_scan (htree : fs.node? p.sourceDir = .ok tree) (hwf : tree.WellFormed)
    (hscan : p.scan fs supply = (.ok catalog, supply')) (hm : m.target ∈ catalog.targets)
    (hm' : m'.target ∈ catalog.targets) (hback : '\\' ∉ m.target.relativeDir.toList)
    (hback' : '\\' ∉ m'.target.relativeDir.toList) (hb : b ∈ (ProjectFile.ofMember p s m).builds)
    (hb' : b' ∈ (ProjectFile.ofMember p s' m').builds)
    (hne : (m.target, b.configuration) ≠ (m'.target, b'.configuration)) :
    b.intermediateDir ≠ b'.intermediateDir := by
  obtain ⟨c, -, rfl⟩ := List.mem_map.mp hb
  obtain ⟨c', -, rfl⟩ := List.mem_map.mp hb'
  obtain ⟨names, entries, hfind, hdir, -⟩ := files_of_scan htree hwf hscan hm
  obtain ⟨names', entries', hfind', hdir', -⟩ := files_of_scan htree hwf hscan hm'
  have hclear : ∀ {names}, '\\' ∉ (dirText names).toList → ∀ name ∈ names, '\\' ∉ name.toList :=
    fun h name hname hmem => h ((mem_dirText_iff (by decide)).mpr ⟨name, hname, hmem⟩)
  intro heq
  obtain ⟨rfl, rfl⟩ := eq_of_intermediateDir_eq hdir hdir' (hwf.isPlain_of_find? hfind)
    (hwf.isPlain_of_find? hfind') (hclear (hdir ▸ hback)) (hclear (hdir' ▸ hback')) heq
  have hnodup := nodup_directories_of_scan htree hwf hscan
  have htarget : m.target = m'.target :=
    List.inj_on_of_nodup_map hnodup hm hm' (hdir.trans hdir'.symm)
  exact hne (congrArg (·, c) htarget)

/-- The intermediate directory of a target of the project is told by the directory
of the target alone. -/
theorem intermediateDir_hyphen {dir : String} {c : Configuration} {text : String}
    (h : withTrailingSlash ((hyphen.intermediateOfTarget c dir).relative hyphen.outputDir) = text)
    {t : Target} (ht : t.relativeDir = dir) :
    (BuildSettings.ofTarget hyphen t c).intermediateDir = text := by
  rw [← ht] at h
  simpa only [BuildSettings.ofTarget] using h

/-- A library and its test, whose directory lies in that of the library. The debug
build of the library shares its directory with neither the debug build of the test
nor its own release build. -/
theorem intermediateDir_ne_of_scan_hyphen :
    ∃ r, hyphen.generate hyphenFiles = .ok r ∧
      ∃ f ∈ r.projectFiles, ∃ f' ∈ r.projectFiles, f.name = "a" ∧ f'.name = "a_test" ∧
        ∃ b ∈ f.builds, ∃ b' ∈ f'.builds, ∃ b'' ∈ f.builds,
          b.intermediateDir = "../out/debug/a/" ∧ b'.intermediateDir = "../out/debug/a/test/" ∧
            b''.intermediateDir = "../out/release/a/" ∧
              b.intermediateDir ≠ b'.intermediateDir ∧ b.intermediateDir ≠ b''.intermediateDir := by
  obtain ⟨catalog, s, hscan, hrows, hassemble, h⟩ :=
    exists_report_of_scan rfl (by decide +kernel) rows_of_scan_hyphen
  obtain ⟨seed, supply', -, hscan⟩ := scanSeeded_eq_ok_iff.mp hscan
  obtain ⟨m, hm, hdir, hname, -⟩ := Solution.exists_member_of_row hassemble hrows
    (by decide : hyphenLibrary ∈ hyphenRows)
  obtain ⟨m', hm', hdir', hname', -⟩ := Solution.exists_member_of_row hassemble hrows
    (by decide : hyphenTest ∈ hyphenRows)
  have htargets := Solution.targets_perm hassemble
  have ht := htargets.mem_iff.mp (List.mem_map_of_mem hm)
  have ht' := htargets.mem_iff.mp (List.mem_map_of_mem hm')
  have hback : '\\' ∉ m.target.relativeDir.toList := by
    rw [hdir]
    decide
  have hback' : '\\' ∉ m'.target.relativeDir.toList := by
    rw [hdir']
    decide
  have hbuild : ∀ (n : Member) (c : Configuration),
      BuildSettings.ofTarget hyphen n.target c ∈ (ProjectFile.ofMember hyphen s n).builds :=
    fun n c => List.mem_map_of_mem (by cases c <;> decide)
  refine ⟨_, h, _, List.mem_map_of_mem hm, _, List.mem_map_of_mem hm', hname, hname',
    _, hbuild m .debug, _, hbuild m' .debug, _, hbuild m .release,
    intermediateDir_hyphen (by decide +kernel) hdir,
    intermediateDir_hyphen (by decide +kernel) hdir',
    intermediateDir_hyphen (by decide +kernel) hdir, ?_, ?_⟩
  · refine intermediateDir_ne_of_scan node?_hyphen wellFormed_hyphenTree hscan ht ht' hback hback'
      (hbuild m .debug) (hbuild m' .debug) fun heq => ?_
    have hsame := congrArg Target.relativeDir (Prod.mk.inj heq).1
    rw [hdir, hdir'] at hsame
    exact absurd hsame (by decide)
  · refine intermediateDir_ne_of_scan node?_hyphen wellFormed_hyphenTree hscan ht ht hback hback
      (hbuild m .debug) (hbuild m .release) fun heq => ?_
    have hsame : Configuration.debug = Configuration.release := (Prod.mk.inj heq).2
    contradiction

end Project

end SolutionTree
