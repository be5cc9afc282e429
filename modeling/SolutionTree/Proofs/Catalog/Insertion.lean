import SolutionTree.Proofs.Catalog

/-!
What a list with dictionaries shows after any run of insertions.

A run of calls, refused ones among them, keeps the dictionaries in step with the
list (`inStep_offers`) and leaves in the list those targets whose name no target had
that was accepted before (`Accepts`, `accepts_offers`). What is found by name and by
directory, and what comes of the next call, is then told by the accepted targets
alone (`Shows`, `shows_offers`).
-/

namespace SolutionTree.Catalog

namespace Raw

/-! ### Runs -/

/-- What calls with some targets leave, one after another. -/
def offers (r : Raw) (offered : List Target) : Raw :=
  offered.foldl (fun r t => (r.insert t).2) r

/-- Of the targets that are offered to a holder of others, one after another, those
are accepted whose name nothing has that is held by then. -/
inductive Accepts : List Target → List Target → List Target → Prop where
  | done {held : List Target} : Accepts held [] held
  | accept {held rest last : List Target} {t : Target} :
      (∀ u ∈ held, u.name ≠ t.name) → Accepts (held ++ [t]) rest last →
      Accepts held (t :: rest) last
  | refuse {held rest last : List Target} {t u : Target} :
      u ∈ held → u.name = t.name → Accepts held rest last → Accepts held (t :: rest) last

/-- What is shown of the targets that are held, and what comes of the next call: a
refused one leaves the list and both dictionaries as they were, and no position lies
behind the list. -/
structure Shows (r : Raw) (held : List Target) : Prop where
  targets : r.targets = held
  size : r.size = held.length
  accepted : ∀ t, (∀ u ∈ held, u.name ≠ t.name) →
    (r.insert t).1 = .ok () ∧ (r.insert t).2.targets = held ++ [t]
  refused : ∀ t, ∀ u ∈ held, u.name = t.name →
    r.insert t = (.error (.duplicateTarget t.name u.dir t.dir), r)
  find : ∀ name t, r.find? name = some t ↔ t ∈ held ∧ t.name = name
  unique : ∀ t ∈ held, ∀ u ∈ held, t.name = u.name → t = u
  contains : ∀ name, r.contains name = true ↔ ∃ t ∈ held, t.name = name
  findDir : ∀ relativeDir t, r.findDir? relativeDir = some t ↔
    ∃ before behind, held = before ++ t :: behind ∧ t.relativeDir = relativeDir ∧
      ∀ u ∈ behind, u.relativeDir ≠ relativeDir
  findDir_none : ∀ relativeDir, r.findDir? relativeDir = none ↔
    ∀ t ∈ held, t.relativeDir ≠ relativeDir
  positions : ∀ key i, r.byName.get? key = some i ∨ r.byDirectory.get? key = some i →
    i < held.length

variable {r : Raw} {t : Target} {held offered accepted accepted' : List Target}

/-! ### Accepted targets -/

/-- Which targets are accepted is told by those that are offered, in the order in
which they are. -/
theorem Accepts.unique (h : Accepts held offered accepted) (h' : Accepts held offered accepted') :
    accepted = accepted' := by
  induction h with
  | done =>
    cases h'
    rfl
  | accept hfree hrest ih =>
    cases h' with
    | accept hfree' hrest' => exact ih hrest'
    | refuse hu hname hrest' => exact absurd hname (hfree _ hu)
  | refuse hu hname hrest ih =>
    cases h' with
    | accept hfree' hrest' => exact absurd hname (hfree' _ hu)
    | refuse hu' hname' hrest' => exact ih hrest'

/-- **Dictionaries that are in step stay so** through any run of calls. The
induction is on the calls; a refused one changes nothing, and an accepted one is
`InStep.push`. -/
theorem inStep_offers (h : r.InStep) (offered : List Target) : (r.offers offered).InStep := by
  induction offered generalizing r with
  | nil => exact h
  | cons t rest ih => exact ih (h.insert t)

/-- **The list holds what was accepted**, behind what it held before. A name is
refused when the dictionary has it, and that is when some target in the list does.
-/
theorem accepts_offers (h : r.InStep) (offered : List Target) :
    Accepts r.targets offered (r.offers offered).targets := by
  induction offered generalizing r with
  | nil => exact .done
  | cons t rest ih =>
    have hrest := ih (h.insert t)
    rw [offers, List.foldl_cons]
    obtain ⟨hfree, hinsert⟩ | ⟨u, hu, hname, hinsert⟩ := insert_cases h t
    · rw [hinsert] at hrest ⊢
      exact .accept hfree hrest
    · rw [hinsert] at hrest ⊢
      exact .refuse hu hname hrest

/-! ### Observations -/

/-- A list whose dictionaries are in step shows its targets, however they came into
it. -/
theorem InStep.shows (h : r.InStep) : r.Shows r.targets where
  targets := rfl
  size := rfl
  accepted := by
    intro t hfree
    obtain ⟨-, hinsert⟩ | ⟨u, hu, hname, -⟩ := insert_cases h t
    · rw [hinsert]
      exact ⟨rfl, rfl⟩
    · exact absurd hname (hfree u hu)
  refused := by
    intro t u hu hname
    obtain ⟨hfree, -⟩ | ⟨v, hv, hname', hinsert⟩ := insert_cases h t
    · exact absurd hname (hfree u hu)
    · have heq : v = u := List.inj_on_of_nodup_map (Catalog.distinct ⟨r, h⟩) hv hu
        (hname'.trans hname.symm)
      rw [hinsert, heq]
  find := fun name t => Catalog.find?_eq_some_iff (c := ⟨r, h⟩)
  unique := fun t ht u hu hname => List.inj_on_of_nodup_map (Catalog.distinct ⟨r, h⟩) ht hu hname
  contains := fun name => Catalog.contains_iff (c := ⟨r, h⟩)
  findDir := fun relativeDir t => Catalog.findDir?_eq_some_iff_last (c := ⟨r, h⟩)
  findDir_none := fun relativeDir => Catalog.findDir?_eq_none_iff (c := ⟨r, h⟩)
  positions := by
    rintro key i (hname | hdir)
    · obtain ⟨t, ht, -⟩ := (h.byName_iff key i).mp hname
      exact lt_of_getElem?_eq_some ht
    · obtain ⟨⟨t, ht, -⟩, -⟩ := (h.byDirectory_iff key i).mp hdir
      exact lt_of_getElem?_eq_some ht

/-- **Any run of insertions** into an empty list accepts certain targets and no
others, in the order in which they are offered, and what the list and its
dictionaries show are just these. -/
theorem shows_offers (offered : List Target) :
    ∃ accepted, (∀ held, Accepts [] offered held ↔ held = accepted) ∧
      (offers {} offered).Shows accepted := by
  have haccepts : Accepts [] offered (offers {} offered).targets :=
    accepts_offers inStep_empty offered
  refine ⟨(offers {} offered).targets, ?_, (inStep_offers inStep_empty offered).shows⟩
  intro held
  constructor
  · intro hheld
    exact hheld.unique haccepts
  · rintro rfl
    exact haccepts

end Raw

/-- A catalog after calls with some targets, one after another. -/
def offers (c : Catalog) (offered : List Target) : Catalog :=
  ⟨c.raw.offers offered, Raw.inStep_offers c.inStep offered⟩

end SolutionTree.Catalog
