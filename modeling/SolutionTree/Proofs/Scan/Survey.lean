import SolutionTree.Proofs.Catalog
import SolutionTree.Proofs.Sorting
import SolutionTree.Scan

/-!
From what a scan finds to its catalog.

A survey gives candidates when nothing in it is a fault (`gather_eq_ok`) and else
the first fault (`gather_eq_error_iff`), and no candidate is lost or made up on the
way (`mem_candidates_iff`). Enrolling gives them identifiers one after another, and
a catalog that comes of it holds all of them in their order (`enroll_eq_ok`). It
comes of them if they have different names (`exists_catalog_of_nodup`), and else the
first one whose name is taken is refused (`enroll_eq_error_iff`). A scan is the one
and then the other (`scan_eq_ok_iff_enroll`).
-/

namespace SolutionTree

/-! ### Candidates -/

namespace Survey

/-- Findings are gathered when none of them is a fault, and then all candidates
among them are. -/
theorem gather_eq_ok {results : List (Except Fault Finding)} {found : List Candidate}
    (h : gather results = .ok found) :
    ∃ findings : List Finding,
      results = findings.map .ok ∧ found = findings.filterMap Finding.candidate? := by
  induction results generalizing found with
  | nil => exact ⟨[], rfl, (Except.ok.inj h).symm⟩
  | cons result results ih =>
    cases result with
    | error fault => contradiction
    | ok finding =>
      cases hrest : gather results with
      | error fault => simp [gather, hrest] at h
      | ok rest =>
        obtain ⟨findings, rfl, rfl⟩ := ih hrest
        simp only [gather, hrest] at h
        refine ⟨finding :: findings, rfl, ?_⟩
        rw [← Except.ok.inj h, List.filterMap_cons]
        cases finding.candidate? with
        | none => rfl
        | some c => rfl

/-- What is gathered fails where the first finding is a fault. -/
theorem gather_eq_error_iff {results : List (Except Fault Finding)} {fault : Fault} :
    gather results = .error fault ↔ ∃ before result after, results = before ++ result :: after ∧
      result = .error fault ∧ ∀ earlier ∈ before, ∃ finding, earlier = .ok finding := by
  induction results with
  | nil => simp [gather]
  | cons result results ih =>
    rw [Sorting.exists_first_cons_iff, ← ih]
    cases result with
    | error e => simp [gather]
    | ok finding =>
      rw [gather]
      cases gather results <;> simp

variable {v : Survey} {candidates : List Candidate} {c : Candidate}

/-- The candidates of a survey are those of its findings, sorted by the texts of
their directories. -/
theorem candidates_eq_ok (h : v.candidates = .ok candidates) :
    ∃ findings : List Finding, v.findings = findings.map .ok ∧
      candidates = (findings.filterMap Finding.candidate?).mergeSort fun a b =>
        decide (a.relativeDir ≤ b.relativeDir) := by
  rw [Survey.candidates] at h
  cases hgather : gather v.findings with
  | error fault =>
    rw [hgather] at h
    contradiction
  | ok found =>
    rw [hgather] at h
    obtain ⟨findings, hfindings, rfl⟩ := gather_eq_ok hgather
    exact ⟨findings, hfindings, (Except.ok.inj h).symm⟩

theorem exists_ok_of_candidates (h : v.candidates = .ok candidates)
    {result : Except Fault Finding} (hresult : result ∈ v.findings) :
    ∃ finding, result = .ok finding := by
  obtain ⟨findings, hfindings, -⟩ := candidates_eq_ok h
  rw [hfindings] at hresult
  obtain ⟨finding, -, rfl⟩ := List.mem_map.mp hresult
  exact ⟨finding, rfl⟩

theorem candidate?_eq_some_iff {finding : Finding} :
    finding.candidate? = some c ↔ finding = .target c := by
  cases finding with
  | target candidate => simp [Finding.candidate?]
  | skipped relativeDir => simp [Finding.candidate?]

/-- The candidate that was found on a look at a directory, if any. -/
def foundIn : Except Fault Finding → Option Candidate
  | .ok finding => finding.candidate?
  | .error _ => none

theorem foundIn_eq_some_iff {result : Except Fault Finding} :
    foundIn result = some c ↔ result = .ok (.target c) := by
  cases result with
  | error fault => simp [foundIn]
  | ok finding => simp [foundIn, candidate?_eq_some_iff]

theorem filterMap_foundIn (findings : List Finding) :
    (findings.map .ok).filterMap foundIn = findings.filterMap Finding.candidate? := by
  rw [List.filterMap_map]
  rfl
/-- The candidates of a survey are those that it found. -/
theorem mem_candidates_iff (h : v.candidates = .ok candidates) :
    c ∈ candidates ↔ .ok (.target c) ∈ v.findings := by
  obtain ⟨findings, hfindings, rfl⟩ := candidates_eq_ok h
  rw [List.mem_mergeSort, hfindings, List.mem_filterMap]
  simp [candidate?_eq_some_iff]

end Survey

/-! ### Identifiers -/

theorem Identifier.Supply.length_take (supply : Identifier.Supply) (n : Nat) :
    (supply.take n).1.length = n := by
  induction n generalizing supply with
  | zero => rfl
  | succ n ih => simp [take, ih]

section Numbered

variable {candidates : List Candidate} {supply : Identifier.Supply}

theorem exists_candidate_of_mem {t : Target}
    (ht : t ∈ List.zipWith Candidate.withId candidates (supply.take candidates.length).1) :
    ∃ c ∈ candidates, ∃ id, t = c.withId id := by
  obtain ⟨i, hi, rfl⟩ := List.mem_iff_getElem.mp ht
  rw [List.getElem_zipWith]
  exact ⟨_, List.getElem_mem _, _, rfl⟩

theorem exists_target_of_mem {c : Candidate} (hc : c ∈ candidates) :
    ∃ id, c.withId id ∈
      List.zipWith Candidate.withId candidates (supply.take candidates.length).1 := by
  obtain ⟨i, hi, rfl⟩ := List.mem_iff_getElem.mp hc
  have hlength : i < (supply.take candidates.length).1.length := by
    rwa [Identifier.Supply.length_take]
  refine ⟨(supply.take candidates.length).1.get ⟨i, hlength⟩, List.mem_iff_getElem.mpr ⟨i, ?_, ?_⟩⟩
  · rw [List.length_zipWith]
    exact Nat.lt_min.mpr ⟨hi, hlength⟩
  · rw [List.getElem_zipWith, List.get_eq_getElem]

end Numbered

/-- **A catalog that comes of candidates** holds each with the next identifier, in
their order. -/
theorem enroll_eq_ok {candidates : List Candidate} {catalog catalog' : Catalog}
    {supply supply' : Identifier.Supply}
    (h : enroll candidates catalog supply = (.ok catalog', supply')) :
    catalog'.targets = catalog.targets ++
        List.zipWith Candidate.withId candidates (supply.take candidates.length).1 ∧
      supply' = (supply.take candidates.length).2 := by
  induction candidates generalizing catalog supply with
  | nil =>
    obtain ⟨hcatalog, rfl⟩ := Prod.mk.inj h
    rw [← Except.ok.inj hcatalog]
    simp [Identifier.Supply.take]
  | cons candidate candidates ih =>
    rw [enroll] at h
    cases hinsert : catalog.insert (candidate.withId supply.draw.1) with
    | error fault => simp [hinsert] at h
    | ok next =>
      simp only [hinsert] at h
      obtain ⟨htargets, hsupply⟩ := ih h
      refine ⟨?_, hsupply⟩
      rw [htargets, Catalog.targets_of_insert hinsert]
      simp [Identifier.Supply.take]

/-- Candidates of different names that are free are all enrolled. -/
theorem exists_catalog_of_nodup {candidates : List Candidate} {catalog : Catalog}
    (supply : Identifier.Supply)
    (h : (catalog.names ++ candidates.map Candidate.name).Nodup) :
    ∃ catalog' supply', enroll candidates catalog supply = (.ok catalog', supply') := by
  induction candidates generalizing catalog supply with
  | nil => exact ⟨catalog, supply, rfl⟩
  | cons c candidates ih =>
    obtain ⟨next, hinsert, -, hnames⟩ :=
      Catalog.exists_insert_of_nodup (t := c.withId supply.draw.1) h
    obtain ⟨catalog', supply', henroll⟩ := ih supply.draw.2 hnames
    refine ⟨catalog', supply', ?_⟩
    simp only [enroll, hinsert, henroll]

/-! ### Refusals -/

/-- The names that are taken by targets and then by candidates, each with the
directory that has it. -/
def holders (catalog : Catalog) (candidates : List Candidate) : List (String × Path) :=
  catalog.targets.map (fun t => (t.name, t.dir)) ++
    candidates.map fun c => (c.name, c.files.path)

section Refused

variable {candidates : List Candidate} {catalog : Catalog} {supply : Identifier.Supply}
  {c : Candidate}

/-- A name is held by the targets that were there before, and by the candidates that
have come. -/
theorem mem_holders_iff {name : String} {path : Path} :
    (name, path) ∈ holders catalog candidates ↔
      (∃ t ∈ catalog.targets, t.name = name ∧ t.dir = path) ∨
        ∃ c ∈ candidates, c.name = name ∧ c.files.path = path := by
  simp [holders]

theorem names_holders :
    (holders catalog candidates).map Prod.fst = catalog.names ++ candidates.map Candidate.name := by
  simp [holders, Catalog.names, Function.comp_def]

/-- A candidate whose name is free takes one identifier and becomes a target. -/
theorem enroll_cons_of_free (candidates : List Candidate) (supply : Identifier.Supply)
    (h : ∀ t ∈ catalog.targets, t.name ≠ c.name) :
    ∃ next, enroll (c :: candidates) catalog supply = enroll candidates next supply.draw.2 ∧
      ∀ before, holders next before = holders catalog (c :: before) := by
  obtain ⟨next, hinsert, htargets⟩ := Catalog.insert_of_free (t := c.withId supply.draw.1) h
  refine ⟨next, by simp only [enroll, hinsert], fun before => ?_⟩
  simp [holders, htargets, Candidate.withId, Target.dir]

/-- The first candidate whose name is taken ends the enrolment. The fault names the
directory that has the name and the one that wants it. -/
theorem enroll_cons_of_taken {t : Target} (ht : t ∈ catalog.targets) (hname : t.name = c.name) :
    (enroll (c :: candidates) catalog supply).1 =
      .error (.duplicateTarget c.name t.dir c.files.path) := by
  have hinsert : catalog.insert (c.withId supply.draw.1) =
      .error (.duplicateTarget c.name t.dir c.files.path) := Catalog.insert_of_taken ht hname
  simp only [enroll, hinsert]

/-- **Candidates are refused** at the first of them whose name is taken. What stood
in the catalog before counts like the candidates before it. -/
theorem enroll_eq_error_iff {fault : Fault} :
    (enroll candidates catalog supply).1 = .error fault ↔
      ∃ before c after, candidates = before ++ c :: after ∧
        ((holders catalog before).map Prod.fst).Nodup ∧
        ∃ first, (c.name, first) ∈ holders catalog before ∧
          fault = .duplicateTarget c.name first c.files.path := by
  induction candidates generalizing catalog supply with
  | nil => simp [enroll]
  | cons c rest ih =>
    simp only [List.cons_eq_append_iff]
    by_cases hfree : ∀ t ∈ catalog.targets, t.name ≠ c.name
    · obtain ⟨next, henroll, hholders⟩ :=
        enroll_cons_of_free rest supply hfree
      rw [henroll, ih]
      simp only [hholders]
      constructor
      · rintro ⟨before, c', after, rfl, hrefused⟩
        exact ⟨c :: before, c', after, .inr ⟨before, rfl, rfl⟩, hrefused⟩
      · rintro ⟨before, c', after, ⟨rfl, hsplit⟩ | ⟨before, rfl, rfl⟩, hrefused⟩
        · obtain ⟨rfl, rfl⟩ := List.cons.inj hsplit
          obtain ⟨-, first, hfirst, -⟩ := hrefused
          obtain ⟨t, ht, hname, -⟩ := (mem_holders_iff.mp hfirst).resolve_right (by simp)
          exact absurd hname (hfree t ht)
        · exact ⟨before, c', after, rfl, hrefused⟩
    · obtain ⟨t, ht, hname⟩ : ∃ t ∈ catalog.targets, t.name = c.name := by
        simpa using hfree
      rw [enroll_cons_of_taken ht hname, Except.error.injEq]
      constructor
      · rintro rfl
        refine ⟨[], c, rest, .inl ⟨rfl, rfl⟩, ?_, t.dir, ?_, rfl⟩
        · rw [names_holders, List.map_nil, List.append_nil]
          exact catalog.distinct
        · exact mem_holders_iff.mpr (.inl ⟨t, ht, hname, rfl⟩)
      · rintro ⟨before, c', after, ⟨rfl, hsplit⟩ | ⟨before, rfl, rfl⟩, hnodup, first, hfirst, rfl⟩
        · obtain ⟨rfl, rfl⟩ := List.cons.inj hsplit
          obtain ⟨u, hu, huname, rfl⟩ := (mem_holders_iff.mp hfirst).resolve_right (by simp)
          rw [List.inj_on_of_nodup_map catalog.distinct hu ht (huname.trans hname.symm)]
        · -- The name of the first candidate is taken, so what stands before the refused one
          -- is not free.
          rw [names_holders, List.map_cons, List.nodup_append] at hnodup
          exact absurd hname
            (hnodup.2.2 _ (Catalog.mem_names_iff.mpr ⟨t, ht, rfl⟩) _ List.mem_cons_self)

end Refused

/-! ### Scans -/

/-- A scan succeeds when candidates are found and all get into a catalog. -/
theorem Project.scan_eq_ok_iff_enroll {project : Project} {fs : FileSystem} {catalog : Catalog}
    {supply supply' : Identifier.Supply} :
    project.scan fs supply = (.ok catalog, supply') ↔
      ∃ (v : Survey) (candidates : List Candidate), project.survey fs = .ok v ∧
        v.candidates = .ok candidates ∧
          enroll candidates .empty supply = (.ok catalog, supply') := by
  unfold scan
  cases project.survey fs with
  | error fault => simp
  | ok v =>
    cases hcandidates : v.candidates with
    | error fault => simp [Survey.enroll, hcandidates]
    | ok candidates => simp [Survey.enroll, hcandidates]

end SolutionTree
