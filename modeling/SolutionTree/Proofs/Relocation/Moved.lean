import SolutionTree.Proofs.Catalog.Alike
import SolutionTree.Proofs.Scan.Survey
import SolutionTree.Report.Document

/-!
Targets whose source tree stands elsewhere.

Of all that a target is made of, only the path of its files tells where the source
tree stands. `movedTo` puts another one there. Nothing that is made of targets looks
at that path: candidates are taken into a catalog alike (`enroll_movedTo`), and
catalogs that differ in it alone have the same dependencies (`ofCatalog_movedTo`)
and give solutions that differ in it alone (`assemble_movedTo`), with one
fingerprint and one document.
-/

namespace SolutionTree

/-! ### Moving -/

def Candidate.movedTo (sourceDir : Path) (c : Candidate) : Candidate :=
  { c with files := { c.files with path := sourceDir.descend c.relativeDir } }

def Finding.movedTo (sourceDir : Path) : Finding → Finding
  | .target c => .target (c.movedTo sourceDir)
  | .skipped relativeDir => .skipped relativeDir

/-- The target with its directory below another source directory. -/
def Target.movedTo (sourceDir : Path) (t : Target) : Target :=
  { t with files := { t.files with path := sourceDir.descend t.relativeDir } }

def Member.movedTo (sourceDir : Path) (m : Member) : Member :=
  { m with target := m.target.movedTo sourceDir }

def Solution.movedTo (sourceDir : Path) (s : Solution) : Solution :=
  { s with members := s.members.map (Member.movedTo sourceDir) }

variable {sourceDir : Path}

namespace Target

variable (t : Target)

@[simp] theorem name_movedTo : (t.movedTo sourceDir).name = t.name := rfl
@[simp] theorem kind_movedTo : (t.movedTo sourceDir).kind = t.kind := rfl
@[simp] theorem id_movedTo : (t.movedTo sourceDir).id = t.id := rfl
@[simp] theorem relativeDir_movedTo : (t.movedTo sourceDir).relativeDir = t.relativeDir := rfl
@[simp] theorem manifest_movedTo : (t.movedTo sourceDir).manifest = t.manifest := rfl

end Target

theorem Candidate.withId_movedTo (c : Candidate) (id : Identifier) :
    (c.movedTo sourceDir).withId id = (c.withId id).movedTo sourceDir := rfl

theorem Finding.candidate?_movedTo (finding : Finding) :
    (finding.movedTo sourceDir).candidate? =
      finding.candidate?.map (Candidate.movedTo sourceDir) := by
  cases finding <;> rfl

/-! ### Candidates -/

/-- Findings without a fault give all their candidates. -/
theorem Survey.gather_map_ok (findings : List Finding) :
    Survey.gather (findings.map .ok) = .ok (findings.filterMap Finding.candidate?) := by
  induction findings with
  | nil => rfl
  | cons finding findings ih =>
    rw [List.map_cons, Survey.gather, ih, List.filterMap_cons]
    cases finding.candidate? <;> rfl

/-- Findings that are moved give candidates that are moved, in the same order. -/
theorem Survey.candidates_movedTo {findings : List Finding} {candidates : List Candidate}
    (h : Survey.candidates ⟨findings.map .ok⟩ = .ok candidates) :
    Survey.candidates ⟨(findings.map (Finding.movedTo sourceDir)).map .ok⟩ =
      .ok (candidates.map (Candidate.movedTo sourceDir)) := by
  have hfound : (findings.map (Finding.movedTo sourceDir)).filterMap Finding.candidate? =
      (findings.filterMap Finding.candidate?).map (Candidate.movedTo sourceDir) := by
    rw [List.filterMap_map, List.map_filterMap]
    congr 1
    funext finding
    exact Finding.candidate?_movedTo finding
  -- The order looks at the texts of directories only, which stay.
  have hsort : ∀ found : List Candidate,
      (found.map (Candidate.movedTo sourceDir)).mergeSort
          (fun a b => decide (a.relativeDir ≤ b.relativeDir)) =
        (found.mergeSort fun a b => decide (a.relativeDir ≤ b.relativeDir)).map
          (Candidate.movedTo sourceDir) := by
    intro found
    symm
    apply List.map_mergeSort
    intro a _ b _
    rfl
  rw [Survey.candidates, gather_map_ok] at h ⊢
  rw [← Except.ok.inj h, ← hsort, ← hfound]
  rfl

/-! ### Catalogs -/

namespace Catalog

variable {c d : Catalog} (h : d.targets = c.targets.map (Target.movedTo sourceDir))
include h

/-- Where the source tree stands tells no targets apart. -/
theorem alike_movedTo : d.Alike c := by
  rw [Alike, h, List.forall₂_map_left_iff, List.forall₂_same]
  exact fun t _ => ⟨rfl, rfl, rfl, rfl⟩

/-- Catalogs that differ in where the source tree stands have the same dependencies.
-/
theorem ofCatalog_movedTo : Dependencies.ofCatalog d = Dependencies.ofCatalog c := by
  have hedges : d.targets.map (fun t => (t.name, d.dependenciesOf t)) =
      c.targets.map fun t => (t.name, c.dependenciesOf t) := by
    rw [h, List.map_map]
    apply List.map_congr_left
    intro t _
    have hsame : d.dependenciesOf (t.movedTo sourceDir) = c.dependenciesOf t :=
      (alike_movedTo h).dependenciesOf ⟨rfl, rfl, rfl, rfl⟩ rfl rfl
    rw [Function.comp_apply, Target.name_movedTo, hsame]
  simp only [Dependencies.ofCatalog, hedges]

/-- Whether a target is taken in is a matter of its name, which does not move with
its directory. -/
theorem insert_movedTo {c' : Catalog} {t : Target} (hinsert : c.insert t = .ok c') :
    ∃ d', d.insert (t.movedTo sourceDir) = .ok d' ∧
      d'.targets = c'.targets.map (Target.movedTo sourceDir) := by
  have hfree : ∀ u ∈ d.targets, u.name ≠ (t.movedTo sourceDir).name := by
    rw [h, List.forall_mem_map]
    exact fun u hu => free_of_insert hinsert u hu
  obtain ⟨d', hd', htargets⟩ := insert_of_free hfree
  refine ⟨d', hd', ?_⟩
  rw [htargets, targets_of_insert hinsert, List.map_append, ← h]
  rfl

end Catalog

/-- Enrolling moved candidates gives moved targets, with the same identifiers. -/
theorem enroll_movedTo {candidates : List Candidate} {c c' d : Catalog}
    {supply supply' : Identifier.Supply}
    (hd : d.targets = c.targets.map (Target.movedTo sourceDir))
    (h : enroll candidates c supply = (.ok c', supply')) :
    ∃ d', enroll (candidates.map (Candidate.movedTo sourceDir)) d supply = (.ok d', supply') ∧
      d'.targets = c'.targets.map (Target.movedTo sourceDir) := by
  induction candidates generalizing c d supply with
  | nil =>
    obtain ⟨hc, rfl⟩ := Prod.mk.inj h
    obtain rfl := Except.ok.inj hc
    exact ⟨d, rfl, hd⟩
  | cons candidate candidates ih =>
    rw [enroll] at h
    cases hinsert : c.insert (candidate.withId supply.draw.1) with
    | error fault => simp [hinsert] at h
    | ok next =>
      simp only [hinsert] at h
      obtain ⟨next', hnext, htargets⟩ := Catalog.insert_movedTo hd hinsert
      obtain ⟨d', hd', htargets'⟩ := ih htargets h
      refine ⟨d', ?_, htargets'⟩
      simp only [List.map_cons, enroll, Candidate.withId_movedTo, hnext, hd']

/-! ### Solutions -/

namespace Solution

/-- A solution of moved targets is the solution of the targets, moved: neither names
nor references nor the order tell where a directory stands. -/
theorem assemble_movedTo {c d : Catalog} (h : d.targets = c.targets.map (Target.movedTo sourceDir))
    (dependencies : Dependencies) (options : SolutionOptions) :
    assemble d dependencies options =
      (assemble c dependencies options).map (Solution.movedTo sourceDir) := by
  rw [assemble, assemble, (Catalog.alike_movedTo h).selectMain]
  cases c.selectMain options.main with
  | error fault => rfl
  | ok main =>
    have hmember : ∀ t,
        Member.ofTarget d.identifiers dependencies options.extension (t.movedTo sourceDir) =
        (Member.ofTarget c.identifiers dependencies options.extension t).movedTo sourceDir := by
      intro t
      simp only [Member.ofTarget, (Catalog.alike_movedTo h).identifiers_get?]
      rfl
    have hmembers : d.targets.map (Member.ofTarget d.identifiers dependencies options.extension) =
        (c.targets.map (Member.ofTarget c.identifiers dependencies options.extension)).map
          (Member.movedTo sourceDir) := by
      rw [h, List.map_map, List.map_map]
      exact List.map_congr_left fun t _ => hmember t
    have hsort : ∀ members : List Member,
        (members.map (Member.movedTo sourceDir)).mergeSort (Member.inOrder main) =
          (members.mergeSort (Member.inOrder main)).map (Member.movedTo sourceDir) := by
      intro members
      symm
      apply List.map_mergeSort
      intro a _ b _
      rfl
    simp only [Except.map, Solution.movedTo, hmembers, hsort]

theorem fingerprint_movedTo (s : Solution) :
    (s.movedTo sourceDir).fingerprint = s.fingerprint := by
  have hstream : (s.movedTo sourceDir).stream = s.stream := by
    simp only [stream, Solution.movedTo, List.flatMap_map]
    rfl
  rw [fingerprint, fingerprint, hstream]

/-- The document of a solution has no directory of a target in it. -/
theorem document_movedTo (s : Solution) : (s.movedTo sourceDir).document = s.document := by
  simp only [document, Solution.movedTo, List.map_map]
  rfl

theorem find?_movedTo (s : Solution) (name : String) :
    (s.movedTo sourceDir).find? name = (s.find? name).map (Member.movedTo sourceDir) := by
  rw [find?, Solution.movedTo, List.find?_map]
  rfl

end Solution

end SolutionTree
