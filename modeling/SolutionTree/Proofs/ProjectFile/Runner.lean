import Mathlib.Data.List.Triplewise
import SolutionTree.Proofs.ProjectFile.Places
import SolutionTree.Proofs.Scan.Identifiers

/-!
The runner of a test calls the renamed `main` of each source.

The functions that a runner declares and calls are read off its lines
(`TestRunner.declared`, `TestRunner.called`), and the names that `main` is given off
the compile items (`ProjectFile.renamedMains`). For a test that a scan finds they
are all the same: `main_` and the stems of its sources, in file order
(`runsTest_of_scan`). They are identifiers and different only if the stems are word
characters and different; nothing is done about a hyphen in a stem, or about two
sources with one stem (`not_callsEach_clashing`).
-/

namespace SolutionTree

/-! ### Reading lines -/

/-- What stands between two texts in a line that starts with the one and ends with
the other. -/
def between? (front back line : String) : Option String := do
  let rest ← line.toList.dropPrefix? front.toList
  let middle ← rest.dropSuffix? back.toList
  return String.ofList middle

variable {front back line name : String} {names : List String}

/-- What stands between two texts in a line is all of the line but for these. -/
theorem between?_eq_some_iff :
    between? front back line = some name ↔ line = front ++ name ++ back := by
  simp only [between?, Option.bind_eq_bind, Option.bind_eq_some_iff, Option.pure_def,
    Option.some.injEq, List.dropPrefix?_eq_some_iff, List.dropSuffix?_eq_some_iff, beq_iff_eq,
    exists_eq_right]
  constructor
  · rintro ⟨rest, hline, middle, hrest, rfl⟩
    apply String.toList_inj.mp
    simp [hline, hrest]
  · rintro rfl
    exact ⟨name.toList ++ back.toList, by simp, name.toList, rfl, by simp⟩

/-- Lines that each end with a line feed are cut apart again. -/
theorem pieces_join_lines {lines : List String} (h : ∀ line ∈ lines, '\n' ∉ line.toList)
    (rest : String) :
    Text.pieces '\n' (String.join (lines.map (· ++ "\n")) ++ rest) =
      lines ++ Text.pieces '\n' rest := by
  induction lines with
  | nil => simp
  | cons line lines ih =>
    have ⟨hline, hlines⟩ := List.forall_mem_cons.mp h
    rw [List.map_cons, String.join_cons, String.append_assoc, List.cons_append, ← ih hlines]
    exact (Text.pieces_append line _).trans (by rw [Text.pieces_of_notMem hline]; rfl)

namespace TestRunner

def lines (r : TestRunner) : List String :=
  Text.pieces '\n' r.contents

def declared (r : TestRunner) : List String :=
  (r.lines.takeWhile (· != "\x7b")).filterMap (between? "int " "(int argc, char *argv[]);")

def called (r : TestRunner) : List String :=
  (r.lines.dropWhile (· != "\x7b")).filterMap (between? "    " "(argc, argv);")

variable {t : Target}

/-- The line that declares a function, and the one that calls it. -/
def declarationLine (name : String) : String :=
  "int " ++ name ++ "(int argc, char *argv[]);"

def callLine (name : String) : String :=
  "    " ++ name ++ "(argc, argv);"

theorem declaration_eq (name : String) : declaration name = declarationLine name ++ "\n" := by
  rw [declaration, declarationLine,
    show "(int argc, char *argv[]);\n" = "(int argc, char *argv[]);" ++ "\n" from rfl]
  simp only [String.append_assoc]

theorem call_eq (name : String) : call name = callLine name ++ "\n" := by
  rw [call, callLine, show "(argc, argv);\n" = "(argc, argv);" ++ "\n" from rfl]
  simp only [String.append_assoc]

/-- No line before the body of `main` is the brace that opens it. -/
theorem ne_brace_of_mem : ∀ line ∈ names.map declarationLine ++
    ["", "int main(int argc, char *argv[])"], (line != "\x7b") = true := by
  refine List.forall_mem_append.mpr ⟨?_, by decide⟩
  intro line hline
  obtain ⟨name, -, rfl⟩ := List.mem_map.mp hline
  rw [bne_iff_ne]
  intro heq
  have hcs := congrArg String.toList heq
  simp [declarationLine] at hcs

/-- Declarations are read back from the lines of a runner. -/
theorem filterMap_declarationLine (names : List String) :
    (names.map declarationLine).filterMap (between? "int " "(int argc, char *argv[]);") = names := by
  have hread : ∀ name,
      between? "int " "(int argc, char *argv[]);" (declarationLine name) = some name :=
    fun name => between?_eq_some_iff.mpr rfl
  simp only [List.filterMap_map, Function.comp_def, hread, List.filterMap_some]

theorem filterMap_callLine (names : List String) :
    (names.map callLine).filterMap (between? "    " "(argc, argv);") = names := by
  have hread : ∀ name, between? "    " "(argc, argv);" (callLine name) = some name :=
    fun name => between?_eq_some_iff.mpr rfl
  simp only [List.filterMap_map, Function.comp_def, hread, List.filterMap_some]

section Lines

variable (hnames : t.files.sourcePaths.map entryPoint = names)
  (h : ∀ name ∈ names, '\n' ∉ name.toList)
include hnames h

/-- The lines of a runner: declarations and the head of `main`, and then its body
with the calls. -/
theorem lines_ofTarget :
    (ofTarget t).lines =
      names.map declarationLine ++ ["", "int main(int argc, char *argv[])"] ++
        "\x7b" :: (names.map callLine ++ ["\x7d", ""]) := by
  have hhead : "\nint main(int argc, char *argv[])\n\x7b\n" =
      String.join (["", "int main(int argc, char *argv[])", "\x7b"].map (· ++ "\n")) := by
    decide
  have hend : Text.pieces '\n' "\x7d\n" = ["\x7d", ""] := by decide
  have hdeclarations : ∀ line ∈ names.map declarationLine, '\n' ∉ line.toList := by
    simpa [declarationLine] using h
  have hcalls : ∀ line ∈ names.map callLine, '\n' ∉ line.toList := by
    simpa [callLine] using h
  have hdeclaration : names.map declaration = (names.map declarationLine).map (· ++ "\n") := by
    simp [declaration_eq]
  have hcall : names.map call = (names.map callLine).map (· ++ "\n") := by
    simp [call_eq]
  simp only [lines, ofTarget, hnames]
  rw [hdeclaration, hcall, hhead, String.append_assoc, String.append_assoc,
    pieces_join_lines hdeclarations, pieces_join_lines (by decide), pieces_join_lines hcalls, hend,
    List.append_assoc]
  rfl

/-- **The functions that a runner declares** are the renamed `main`s of its sources,
in order. -/
theorem declared_ofTarget : (ofTarget t).declared = names := by
  have hhead : ["", "int main(int argc, char *argv[])"].filterMap
      (between? "int " "(int argc, char *argv[]);") = [] := by decide
  rw [declared, lines_ofTarget hnames h, List.takeWhile_append_of_pos ne_brace_of_mem,
    List.takeWhile_cons_of_neg (by decide), List.append_nil, List.filterMap_append,
    filterMap_declarationLine, hhead, List.append_nil]

/-- **The functions that a runner calls** are the renamed `main`s of its sources, in
order. -/
theorem called_ofTarget : (ofTarget t).called = names := by
  have hbrace : between? "    " "(argc, argv);" "\x7b" = none := by decide
  have hend : ["\x7d", ""].filterMap (between? "    " "(argc, argv);") = [] := by decide
  rw [called, lines_ofTarget hnames h, List.dropWhile_append_of_pos ne_brace_of_mem,
    List.dropWhile_cons_of_neg (by decide), List.filterMap_cons_none hbrace, List.filterMap_append,
    filterMap_callLine, hend, List.append_nil]

end Lines

end TestRunner

/-! ### Renamed mains -/

/-- The stem of a name: something before its last dot. -/
def IsStem (stem name : String) : Prop :=
  ∃ extension, name = stem ++ "." ++ extension ∧ stem ≠ "" ∧ '.' ∉ extension.toList

/-- What may stand in an identifier of C. -/
def isWordChar (c : Char) : Bool :=
  c.isAlphanum || c == '_'

/-- An identifier of C: letters, digits and underscores, and no digit first. -/
def IsIdentifier (s : String) : Prop :=
  (∃ c ∈ s.toList.head?, c.isDigit = false) ∧ ∀ c ∈ s.toList, isWordChar c = true

/-- A stem makes an identifier when all its characters may stand in one; the text in
front of it has the first one. -/
theorem isIdentifier_main_iff (stem : String) :
    IsIdentifier ("main_" ++ stem) ↔ ∀ c ∈ stem.toList, isWordChar c = true := by
  have hfront : ∀ c ∈ "main_".toList, isWordChar c = true := List.all_eq_true.mp (by decide)
  rw [IsIdentifier, String.toList_append, List.forall_mem_append, and_iff_right hfront,
    and_iff_right ⟨'m', rfl, rfl⟩]

/-- Names of `main` are different when the stems are. -/
theorem nodup_map_main_iff (stems : List String) :
    (stems.map ("main_" ++ ·)).Nodup ↔ stems.Nodup := by
  refine List.nodup_map_iff ?_
  intro stem stem' heq
  simpa using heq

namespace ProjectFile

/-- The names that compile items give to `main`, in order. -/
def renamedMains (f : ProjectFile) : List String :=
  f.compileItems.flatMap fun item => item.defines.filterMap (between? "main=" "")

/-- A runner that calls the `main` of each source once: the names that they are
given are different identifiers, and these are what the runner declares and what it
calls, in order. -/
structure CallsEach (f : ProjectFile) (r : TestRunner) : Prop where
  isIdentifier : ∀ name ∈ f.renamedMains, IsIdentifier name
  nodup : f.renamedMains.Nodup
  declared_eq : r.declared = f.renamedMains
  called_eq : r.called = f.renamedMains
  called_once : ∀ name ∈ f.renamedMains, r.called.count name = 1

/-- The project file of a test whose sources have the given stems, and its runner.
-/
structure RunsTest (f : ProjectFile) (r : TestRunner) (stems : List String) : Prop where
  testRunner : f.testRunner = some r
  /-- Each source has its own `main` renamed, and behind the sources there is only
  the runner. -/
  compileItems : ∃ items, f.compileItems = items ++ [{ path := r.fileName }] ∧
    items.map CompileItem.defines = stems.map fun stem => ["main=main_" ++ stem]
  renamedMains : f.renamedMains = stems.map ("main_" ++ ·)
  declared_eq : (∀ stem ∈ stems, '\n' ∉ stem.toList) → r.declared = f.renamedMains
  called_eq : (∀ stem ∈ stems, '\n' ∉ stem.toList) → r.called = f.renamedMains
  /-- Nothing but the stems keeps the runner from calling each `main` once. -/
  callsEach_iff : f.CallsEach r ↔
    stems.Nodup ∧ ∀ stem ∈ stems, ∀ c ∈ stem.toList, isWordChar c = true

variable {p : Project} {s : Solution} {m : Member} {stems : List String}

section Test

variable (hkind : m.target.kind = .test)
include hkind

theorem compileItems_ofMember :
    (ofMember p s m).compileItems = m.target.files.sourcePaths.map (compileItem p .test) ++
      [{ path := (TestRunner.ofTarget m.target).fileName }] := by
  simp [ofMember, hkind]

theorem renamedMains_ofMember :
    (ofMember p s m).renamedMains = m.target.files.sourcePaths.map entryPoint := by
  have hread : ∀ name, between? "main=" "" ("main=" ++ name) = some name :=
    fun name => between?_eq_some_iff.mpr (by simp)
  have hsource : ∀ source, (compileItem p .test source).defines.filterMap (between? "main=" "") =
      [entryPoint source] := by
    intro source
    simp [compileItem, hread]
  rw [renamedMains, compileItems_ofMember hkind, List.flatMap_append, List.flatMap_map]
  simp only [hsource, ← List.map_eq_flatMap]
  exact List.append_nil _

end Test

section Stems

variable (hkind : m.target.kind = .test)
  (hstems : m.target.files.sourcePaths.map entryPoint = stems.map ("main_" ++ ·))
include hkind hstems

/-- A runner declares and calls what compile items give to `main`, in their order. A
stem with a line feed in it would break a declaration in two. -/
theorem declared_and_called (h : ∀ stem ∈ stems, '\n' ∉ stem.toList) :
    (TestRunner.ofTarget m.target).declared = (ofMember p s m).renamedMains ∧
      (TestRunner.ofTarget m.target).called = (ofMember p s m).renamedMains := by
  have hlines : ∀ name ∈ stems.map ("main_" ++ ·), '\n' ∉ name.toList := by simpa using h
  rw [renamedMains_ofMember hkind, hstems]
  exact ⟨TestRunner.declared_ofTarget hstems hlines, TestRunner.called_ofTarget hstems hlines⟩

/-- The runner calls each `main` once just if the stems are different word
characters. -/
theorem callsEach_ofTarget_iff :
    (ofMember p s m).CallsEach (.ofTarget m.target) ↔
      stems.Nodup ∧ ∀ stem ∈ stems, ∀ c ∈ stem.toList, isWordChar c = true := by
  have hrenamed : (ofMember p s m).renamedMains = stems.map ("main_" ++ ·) := by
    rw [renamedMains_ofMember hkind, hstems]
  have hidentifiers : (∀ name ∈ (ofMember p s m).renamedMains, IsIdentifier name) ↔
      ∀ stem ∈ stems, ∀ c ∈ stem.toList, isWordChar c = true := by
    rw [hrenamed, List.forall_mem_map]
    exact forall₂_congr fun stem _ => isIdentifier_main_iff stem
  constructor
  · intro h
    exact ⟨(nodup_map_main_iff stems).mp (hrenamed ▸ h.nodup), hidentifiers.mp h.isIdentifier⟩
  · rintro ⟨hnodup, hword⟩
    have hlines : ∀ stem ∈ stems, '\n' ∉ stem.toList :=
      fun stem hstem hmem => absurd (hword stem hstem '\n' hmem) (by decide)
    obtain ⟨hdeclared, hcalled⟩ := declared_and_called (p := p) (s := s) hkind hstems hlines
    have hmains : (ofMember p s m).renamedMains.Nodup :=
      hrenamed ▸ (nodup_map_main_iff stems).mpr hnodup
    refine ⟨hidentifiers.mpr hword, hmains, hdeclared, hcalled, ?_⟩
    intro name hname
    rw [hcalled]
    exact List.count_eq_one_of_mem hmains hname

theorem runsTest_ofMember : (ofMember p s m).RunsTest (.ofTarget m.target) stems where
  testRunner := by simp [ofMember, hkind]
  compileItems := by
    refine ⟨_, compileItems_ofMember hkind, ?_⟩
    have hdefines : CompileItem.defines ∘ compileItem p .test =
        (fun name => ["main=" ++ name]) ∘ entryPoint := rfl
    have htext : ∀ stem, "main=" ++ ("main_" ++ stem) = "main=main_" ++ stem := by
      intro stem
      rw [← String.append_assoc]
      rfl
    rw [List.map_map, hdefines, ← List.map_map, hstems, List.map_map]
    simp only [Function.comp_def, htext]
  renamedMains := by rw [renamedMains_ofMember hkind, hstems]
  declared_eq h := (declared_and_called hkind hstems h).1
  called_eq h := (declared_and_called hkind hstems h).2
  callsEach_iff := callsEach_ofTarget_iff hkind hstems

end Stems

end ProjectFile

/-! ### Tests of a scan -/

namespace Project

open SolutionTree.Path

variable {p : Project} {fs : FileSystem} {tree : FileTree} {catalog : Catalog}
  {supply supply' : Identifier.Supply} {t : Target}

/-- The stem that an entry point is named after. -/
theorem isStem_of_isSourceName {dir : Path} {extensions : Extensions} {name : String}
    (hdir : dir.text ≠ "") (hname : isPlain name = true) (h : extensions.IsSourceName name) :
    IsStem ((dir.child name).stem?.getD "") name := by
  obtain ⟨stem, extension, rfl, hstem, hdot, -⟩ := h
  rw [stem?_eq_some (fileName?_child hdir hname) hstem hdot]
  exact ⟨extension, rfl, hstem, hdot⟩

/-- The sources of a target have stems, and their entry points are named after them.
-/
theorem exists_stems_of_scan (htree : fs.node? p.sourceDir = .ok tree) (hwf : tree.WellFormed)
    (hscan : p.scan fs supply = (.ok catalog, supply')) (ht : t ∈ catalog.targets) :
    ∃ stems, List.Forall₂ IsStem stems t.files.sources ∧
      t.files.sourcePaths.map entryPoint = stems.map ("main_" ++ ·) := by
  obtain ⟨names, entries, hfind, -, hfiles⟩ := files_of_scan htree hwf hscan ht
  have hroot : p.sourceDir.text ≠ "" :=
    FileSystem.text_ne_of_refusal? (FileSystem.node?_eq_ok_iff.mp htree).1
  have hdir := text_under_ne hroot (hwf.isPlain_of_find? hfind)
  have hpath : t.files.path = p.sourceDir.under names := by rw [hfiles, Listing.ofEntries]
  refine ⟨t.files.sourcePaths.map fun source => source.stem?.getD "", ?_, ?_⟩
  · rw [Listing.sourcePaths, List.map_map, List.forall₂_map_left_iff, List.forall₂_same]
    intro name hname
    obtain ⟨hplain, hsource⟩ :=
      Listing.isSourceName_of_mem_sources hdir (hwf.of_find? hfind).isPlain_of_mem (hfiles ▸ hname)
    exact isStem_of_isSourceName (hpath ▸ hdir) hplain hsource
  · rw [List.map_map]
    rfl

/-- **The runner of a test calls the renamed `main` of each source**, in file order:
it declares and calls what the compile items name them, `main_` and the stems of the
sources. These are different identifiers just if the stems are different and made of
word characters. -/
theorem runsTest_of_scan (htree : fs.node? p.sourceDir = .ok tree) (hwf : tree.WellFormed)
    (hscan : p.scan fs supply = (.ok catalog, supply')) (ht : t ∈ catalog.targets)
    (hkind : t.kind = .test) (s : Solution) (m : Member) (hm : m.target = t) :
    ∃ r stems, List.Forall₂ IsStem stems t.files.sources ∧
      (ProjectFile.ofMember p s m).RunsTest r stems := by
  subst hm
  obtain ⟨stems, hsources, hstems⟩ := exists_stems_of_scan htree hwf hscan ht
  exact ⟨_, stems, hsources, ProjectFile.runsTest_ofMember hkind hstems⟩

/-- The only source of a test has one `main`, which its runner declares and calls.
-/
theorem runsTest_of_scan_loneTest :
    ∃ catalog supply', loneTest.scan loneTestFiles ⟨.nil⟩ = (.ok catalog, supply') ∧
      ∃ t ∈ catalog.targets, t.kind = .test ∧ t.files.sources = ["unit.CPP"] ∧
        ∀ (s : Solution) (m : Member), m.target = t →
          ∃ r stems, List.Forall₂ IsStem stems t.files.sources ∧
            (ProjectFile.ofMember loneTest s m).RunsTest r stems := by
  have htree : loneTestFiles.node? loneTest.sourceDir = .ok loneTestTree := by rfl
  obtain ⟨catalog, supply', hscan, t, ht, hcheck⟩ :=
    exists_target_of_any (fun t => t.kind == .test && t.files.sources == ["unit.CPP"])
      loneTest loneTestFiles (by decide +kernel)
  obtain ⟨hkind, hsources⟩ : t.kind = .test ∧ t.files.sources = ["unit.CPP"] := by
    simpa using hcheck
  exact ⟨catalog, supply', hscan, t, ht, hkind, hsources,
    runsTest_of_scan htree wellFormed_loneTestTree hscan ht hkind⟩

/-! ### Two sources with one stem -/

/-- The files of a test, two of which have one stem, and one a stem with a hyphen.
-/
def clashingEntries : List (String × FileTree) :=
  [("a.c", .file .empty), ("a.cpp", .file .empty), ("b-c.cpp", .file .empty)]

def clashingTree : FileTree :=
  .dir [("test", .dir clashingEntries)]

def clashingFiles : FileSystem where
  tree := .dir [("w", .dir [("src", clashingTree)])]

def clashingRow : Row := ⟨"test", "test", .test, {}, some ⟨"src", "", []⟩⟩

theorem wellFormed_clashingTree : clashingTree.WellFormed := by
  have hfiles : (FileTree.dir clashingEntries).WellFormed := by
    refine .dir (by decide) (by decide) ?_
    simpa [clashingEntries] using .file .empty
  exact .dir (by decide) (by decide) (by simpa using hfiles)

theorem node?_clashing :
    clashingFiles.node? (oneSource "bin").sourceDir = .ok clashingTree := by rfl

theorem ofEntries_clashing : Listing.ofEntries {} ⟨"/w/src/test"⟩ clashingEntries =
    ⟨⟨"/w/src/test"⟩, ["a.c", "a.cpp", "b-c.cpp"], [], []⟩ := by
  have hsorted : (clashingEntries.map Prod.fst).Pairwise (· ≤ ·) := by decide
  rw [Listing.ofEntries, Listing.namesOf_of_sorted hsorted, Listing.namesOf_of_sorted hsorted,
    Listing.namesOf_of_sorted hsorted]
  decide +kernel

theorem survey_clashing : (oneSource "bin").survey clashingFiles =
    .ok ⟨[⟨"/w/src"⟩, ⟨"/w/src/test"⟩].map (Scanner.inspect ⟨oneSource "bin", []⟩ clashingFiles)⟩ := by
  have hbelow : walk (Scanner.keeps ⟨oneSource "bin", []⟩) ((oneSource "bin").sourceDir.child "test")
      (.dir clashingEntries) = [⟨"/w/src/test"⟩] := by
    rw [walk_dir_of_sorted (by decide)]
    decide +kernel
  have hwalk : walk (Scanner.keeps ⟨oneSource "bin", []⟩) (oneSource "bin").sourceDir clashingTree =
      [⟨"/w/src"⟩, ⟨"/w/src/test"⟩] := by
    rw [clashingTree, walk_dir_of_sorted (by decide), walkEntries, hbelow]
    decide +kernel
  have hfits : ∀ dir ∈ [⟨"/w/src"⟩, ⟨"/w/src/test"⟩], FileSystem.refusal? dir = none := by
    decide +kernel
  exact survey_of_walk rfl node?_clashing hwalk hfits

/-- A scan of the three files finds one test. -/
theorem scan_clashing (supply : Identifier.Supply) :
    ∃ catalog supply', (oneSource "bin").scan clashingFiles supply = (.ok catalog, supply') ∧
      catalog.targets.map Target.row = [clashingRow] := by
  have hnode : clashingFiles.node? ⟨"/w/src/test"⟩ = .ok (.dir clashingEntries) := by rfl
  have hread : Listing.read clashingFiles (oneSource "bin").settings.scan.extensions
      ⟨"/w/src/test"⟩ = .ok ⟨⟨"/w/src/test"⟩, ["a.c", "a.cpp", "b-c.cpp"], [], []⟩ :=
    (Listing.read_of_node? hnode).trans (congrArg Except.ok ofEntries_clashing)
  have hfound : (Survey.gather ([⟨"/w/src"⟩, ⟨"/w/src/test"⟩].map
      (Scanner.inspect ⟨oneSource "bin", []⟩ clashingFiles))).toOption.map (List.map Candidate.row) =
        some [clashingRow] := by
    simp only [List.map_cons, List.map_nil, Scanner.inspect, hread]
    decide +kernel
  exact exists_catalog_of_rows survey_clashing hfound (.refl _) (by decide) (by decide) supply

/-- **One name for two functions**: sources of one stem have the same entry point,
which the runner then calls twice, and a hyphen in a stem makes an entry point that
is no identifier. -/
theorem not_callsEach_clashing :
    ∃ catalog supply', (oneSource "bin").scan clashingFiles ⟨.nil⟩ = (.ok catalog, supply') ∧
      ∃ t ∈ catalog.targets, t.kind = .test ∧ ∀ (s : Solution) (m : Member), m.target = t →
        (ProjectFile.ofMember (oneSource "bin") s m).renamedMains =
          ["main_a", "main_a", "main_b-c"] ∧
        ∀ r, ¬ (ProjectFile.ofMember (oneSource "bin") s m).CallsEach r := by
  obtain ⟨catalog, supply', hscan, hrows⟩ := scan_clashing ⟨.nil⟩
  obtain ⟨t, ht, hrow⟩ : ∃ t ∈ catalog.targets, t.row = clashingRow := by
    rw [← List.mem_map, hrows]
    exact List.mem_singleton_self _
  simp only [Target.row, clashingRow, Row.mk.injEq] at hrow
  obtain ⟨hdir, -, hkind, -, -⟩ := hrow
  obtain ⟨names, entries, hfind, hdir', hfiles⟩ :=
    files_of_scan node?_clashing wellFormed_clashingTree hscan ht
  obtain rfl : names = ["test"] :=
    dirText_injective (wellFormed_clashingTree.isPlain_of_find? hfind) (by decide)
      (hdir'.symm.trans hdir)
  obtain rfl : clashingEntries = entries := by
    have hentries : clashingTree.find? ["test"] = some (.dir clashingEntries) := rfl
    exact FileTree.dir.inj (Option.some.inj (hentries.symm.trans hfind))
  have hlisting : t.files = ⟨⟨"/w/src/test"⟩, ["a.c", "a.cpp", "b-c.cpp"], [], []⟩ :=
    hfiles.trans ofEntries_clashing
  refine ⟨catalog, supply', hscan, t, ht, hkind, ?_⟩
  rintro s m rfl
  have hrenamed : (ProjectFile.ofMember (oneSource "bin") s m).renamedMains =
      ["main_a", "main_a", "main_b-c"] := by
    rw [ProjectFile.renamedMains_ofMember hkind, hlisting]
    decide
  exact ⟨hrenamed, fun r h => absurd (hrenamed ▸ h.nodup) (by decide)⟩

end Project

end SolutionTree
