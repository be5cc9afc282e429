import SolutionTree.Proofs.Report
import SolutionTree.Proofs.Scan.Edited

/-!
How far a manifest reaches.

Dependencies are one level deep, so what a manifest declares shows in the references
of its own target and of the tests and scripts right below, and nowhere else
(`generate_of_editsManifest`): if only the manifest of one directory is edited, and
neither becomes malformed nor names another executable, then reports are given of
both trees or of neither, with the same main target and the same members in the same
order, and all other members refer to what they did.
-/

namespace SolutionTree

/-- Two members that show the same, and that refer to the same unless they have
their dependencies from the manifest of one directory. -/
structure Member.AlikeBut (relativeDir : String) (m m' : Member) : Prop where
  alike : m.target.Alike m'.target
  fileName : m.fileName = m'.fileName
  references : ¬ m.target.TakesFrom relativeDir → m.references = m'.references

section Related

variable {c d : Catalog} {t u : Target} {relativeDir : String}

/-- Targets that declare the same have the same dependencies in catalogs that others
cannot tell apart. -/
theorem Target.AlikeBut.of_eq (h : t.AlikeBut relativeDir u) (hcatalogs : c.Alike d)
    (ht : t ∈ c.targets) (hu : u ∈ d.targets) (hnot : ¬ t.TakesFrom relativeDir) :
    (Dependencies.ofCatalog c).of t.name = (Dependencies.ofCatalog d).of u.name := by
  obtain ⟨hmanifest, howner⟩ := h.declares hnot
  rw [Dependencies.of_ofCatalog ht, Dependencies.of_ofCatalog hu]
  exact hcatalogs.dependenciesOf h.alike hmanifest howner

/-- Targets that are alike become members that are alike, and with the same
references unless they take them from the edited manifest. -/
theorem Target.AlikeBut.ofTarget (h : t.AlikeBut relativeDir u) (hcatalogs : c.Alike d)
    (ht : t ∈ c.targets) (hu : u ∈ d.targets) (extension : String) :
    Member.AlikeBut relativeDir (.ofTarget c.identifiers (.ofCatalog c) extension t)
      (.ofTarget d.identifiers (.ofCatalog d) extension u) where
  alike := h.alike
  fileName := h.alike.fileName extension
  references := by
    intro hnot
    rw [Member.ofTarget, Member.ofTarget, h.of_eq hcatalogs ht hu hnot]
    exact List.filterMap_congr fun name _ => by rw [hcatalogs.identifiers_get? name]

end Related

namespace Project

variable {p : Project} {dir : List String} {fs fs' : FileSystem} {tree tree' : FileTree}

namespace EditsManifest

variable (h : p.EditsManifest dir fs fs' tree tree')
include h

/-- The targets of both scans are alike one by one, in one order. -/
theorem forall₂_scanSeeded {catalog catalog' : Catalog} (hscan : p.scanSeeded fs = .ok catalog)
    (hscan' : p.scanSeeded fs' = .ok catalog') :
    List.Forall₂ (fun t u => t ∈ catalog.targets ∧ u ∈ catalog'.targets ∧
      Target.AlikeBut (Path.dirText dir) t u) catalog.targets catalog'.targets := by
  obtain ⟨seed, last, hseed, hscan⟩ := scanSeeded_eq_ok_iff.mp hscan
  obtain ⟨seed', last', hseed', hscan'⟩ := scanSeeded_eq_ok_iff.mp hscan'
  obtain rfl := Except.ok.inj (hseed.symm.trans hseed')
  exact h.forall₂_targets hscan hscan'

theorem exists_scanSeeded {catalog : Catalog} (hscan : p.scanSeeded fs = .ok catalog) :
    ∃ catalog', p.scanSeeded fs' = .ok catalog' := by
  obtain ⟨seed, last, hseed, hscan⟩ := scanSeeded_eq_ok_iff.mp hscan
  obtain ⟨catalog', last', hscan'⟩ := h.exists_catalog ⟨catalog, last, hscan⟩
  exact ⟨catalog', scanSeeded_eq_ok_iff.mpr ⟨seed, last', hseed, hscan'⟩⟩

/-- A report of one side comes with one of the other side, whose main target is the
same and whose members are alike, in one order. -/
theorem exists_generate {r : Report} (hr : p.generate fs = .ok r) :
    ∃ r', p.generate fs' = .ok r' ∧ r.solution.main = r'.solution.main ∧
      List.Forall₂ (Member.AlikeBut (Path.dirText dir)) r.solution.members r'.solution.members := by
  obtain ⟨catalog, s, hscan, hs, rfl⟩ := generate_eq_ok_iff.mp hr
  obtain ⟨catalog', hscan'⟩ := h.exists_scanSeeded hscan
  have htargets := h.forall₂_scanSeeded hscan hscan'
  have hcatalogs : catalog.Alike catalog' := htargets.imp fun _ _ htu => htu.2.2.alike
  obtain ⟨s', hs', hmain, hmembers⟩ := Solution.exists_assemble_of_alike htargets
    (fun _ _ htu => htu.2.2.alike) hs
  refine ⟨_, generate_eq_ok_iff.mpr ⟨catalog', s', hscan', hs', rfl⟩, hmain, hmembers.imp ?_⟩
  rintro _ _ ⟨t, u, ⟨ht, hu, halike⟩, rfl, rfl⟩
  exact halike.ofTarget hcatalogs ht hu _

end EditsManifest

/-- **A manifest reaches one level.** If the manifest of one directory is edited,
the other targets depend on what they did; and there is a report of both trees or of
neither, with the same main target and members. -/
theorem generate_of_editsManifest (h : p.EditsManifest dir fs fs' tree tree') :
    ((∃ r, p.generate fs = .ok r) ↔ ∃ r, p.generate fs' = .ok r) ∧
    (∀ r r', p.generate fs = .ok r → p.generate fs' = .ok r' →
      r.solution.main = r'.solution.main ∧
      List.Forall₂ (Member.AlikeBut (Path.dirText dir)) r.solution.members r'.solution.members) ∧
    ∀ catalog catalog', p.scanSeeded fs = .ok catalog → p.scanSeeded fs' = .ok catalog' →
      ∀ t ∈ catalog.targets, ¬ t.TakesFrom (Path.dirText dir) →
        (Dependencies.ofCatalog catalog).of t.name =
          (Dependencies.ofCatalog catalog').of t.name := by
  refine ⟨⟨?_, ?_⟩, ?_, ?_⟩
  · rintro ⟨r, hr⟩
    obtain ⟨r', hr', -⟩ := h.exists_generate hr
    exact ⟨r', hr'⟩
  · rintro ⟨r', hr'⟩
    obtain ⟨r, hr, -⟩ := h.symm.exists_generate hr'
    exact ⟨r, hr⟩
  · intro r r' hr hr'
    obtain ⟨r'', hr'', halike⟩ := h.exists_generate hr
    obtain rfl : r'' = r' := Except.ok.inj (hr''.symm.trans hr')
    exact halike
  · intro catalog catalog' hscan hscan' t ht hnot
    have htargets := h.forall₂_scanSeeded hscan hscan'
    have hcatalogs : catalog.Alike catalog' := htargets.imp fun _ _ htu => htu.2.2.alike
    obtain ⟨⟨i, hi⟩, rfl⟩ := List.mem_iff_get.mp ht
    obtain ⟨-, hu, halike⟩ := htargets.get hi (htargets.length_eq ▸ hi)
    rw [halike.of_eq hcatalogs ht hu hnot, halike.alike.name]

/-! ### An executable that declares something else -/

/-- Another manifest of the executable. -/
def otherManifest : ByteArray := "EXE = app\nDEPENDS = none tool/test".toUTF8

theorem editsManifest_tool : tool.EditsManifest ["tool"] (toolFiles appManifest)
    (toolFiles otherManifest) (toolTree appManifest) (toolTree otherManifest) where
  node := node?_tool appManifest
  node' := node?_tool otherManifest
  wellFormed := wellFormed_toolTree appManifest
  wellFormed' := wellFormed_toolTree otherManifest
  manifest := by decide
  same := FileTree.sameBut_entry
    (FileTree.sameBut_entry (FileTree.sameBut_file appManifest otherManifest) [] _ rfl) [_] []
    (by decide)
  declares := by
    refine ⟨some "app", appManifest, otherManifest, rfl, rfl, ?_, ?_⟩
    · exact ⟨_, { executable := "app", dependencies := ["core", "core"] },
        (by decide +kernel : _ = some "EXE := app\nDEPENDS := core core"), by decide +kernel, rfl⟩
    · exact ⟨_, { executable := "app", dependencies := ["none", "tool/test"] },
        (by decide +kernel : _ = some "EXE = app\nDEPENDS = none tool/test"), by decide +kernel, rfl⟩

theorem exists_report_tool :
    ∃ r, tool.generate (toolFiles appManifest) = .ok r ∧ r.solution.size = 3 := by
  obtain ⟨catalog, s, -, hrows, hassemble, h⟩ :=
    exists_report_of_scan rfl (by decide +kernel) scan_tool
  exact ⟨_, h, Solution.size_eq_of_rows hassemble hrows⟩

/-- The executable declares a name that means nothing and its own test, and no other
member changes. -/
theorem generate_of_editsManifest_tool :
    tool.EditsManifest ["tool"] (toolFiles appManifest) (toolFiles otherManifest)
      (toolTree appManifest) (toolTree otherManifest) ∧
    ∃ r r', tool.generate (toolFiles appManifest) = .ok r ∧
      tool.generate (toolFiles otherManifest) = .ok r' ∧ r.solution.size = 3 ∧
      r.solution.main = r'.solution.main ∧
      List.Forall₂ (Member.AlikeBut "tool") r.solution.members r'.solution.members := by
  obtain ⟨hreports, hmembers, -⟩ := generate_of_editsManifest editsManifest_tool
  obtain ⟨r, hr, hsize⟩ := exists_report_tool
  obtain ⟨r', hr'⟩ := hreports.mp ⟨r, hr⟩
  obtain ⟨hmain, halike⟩ := hmembers r r' hr hr'
  exact ⟨editsManifest_tool, r, r', hr, hr', hsize, hmain, halike⟩

end Project

end SolutionTree
