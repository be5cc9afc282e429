import Mathlib.Computability.Primrec.List
import Mathlib.Data.List.Permutation
import SolutionTree.Proofs.BuildOrder.Search
import SolutionTree.Proofs.Catalog.Insertion
import SolutionTree.Proofs.Dependencies

/-!
What a build order promises.

An order that `Dependencies.buildOrder` gives has every target once, each after all
targets that it depends on (`buildOrder_ok`), and a target that it reports lies on a
cycle, so that a catalog without cycles has an order (`buildOrder_cycle`).

The second part is the one that needs the search. `outOfTurn?` reports a target
`other` that depends on some `name` and stands behind it among the finished names,
that is, was finished earlier. Then `name` was open at that moment, and leads to
`other`.
-/

namespace SolutionTree

namespace Dependencies

variable {d : Dependencies}

/-! ### The dependencies that are searched -/

/-- Only targets depend on anything. -/
theorem DependsOn.mem_left {a b : String} (h : d.DependsOn a b) : a ∈ d.names :=
  mem_names_of_mem_of h.1

theorem of_resolved_subset {a : String} : d.resolved.of a ⊆ d.names := by
  intro b hb
  exact (dependsOn_iff.mpr hb).2

theorem Leads.mem_left {a b : String} (h : d.Leads a b) : a ∈ d.names := by
  cases h with
  | direct h => exact h.mem_left
  | step h _ => exact h.mem_left

/-- Paths of dependencies can be put behind one another. -/
theorem leads_trans {a b c : String} (hab : d.Leads a b) (hbc : d.Leads b c) : d.Leads a c := by
  induction hab with
  | direct h => exact .step h hbc
  | step h _ ih => exact .step h (ih hbc)

/-- A target leads to whatever one of its dependencies reaches. -/
theorem leads_of_reaches {a b c : String} (h : d.DependsOn a b)
    (hr : Search.Reaches d.resolved.of b c) : d.Leads a c := by
  induction hr with
  | refl => exact .direct h
  | tail _ hstep ih => exact leads_trans ih (.direct (dependsOn_iff.mpr hstep))

/-- The dependents of a name are the targets that list it. -/
theorem mem_dependents_iff (hd : d.names.Nodup) {name other : String} :
    other ∈ d.dependents name ↔ name ∈ d.of other := by
  simp only [dependents, List.mem_map, List.mem_filter, List.contains_iff_mem]
  constructor
  · rintro ⟨edge, ⟨he, hn⟩, rfl⟩
    have hl := (Association.lookup_eq_some_iff_mem hd (k := edge.1) (b := edge.2)).mpr he
    rwa [of, hl]
  · intro hn
    exact ⟨_, ⟨mem_edges_of_mem_of hn, hn⟩, rfl⟩

/-! ### Targets that are taken out of turn -/

/-- What a report means: `other` depends on a name, and is taken neither with it nor
before. -/
theorem outOfTurn?_eq_some {taken names : List String} {other : String}
    (h : d.outOfTurn? taken names = some other) :
    other ∉ taken ∧ ∃ newer name older, names = newer ++ name :: older ∧
      other ∈ d.dependents name ∧ other ≠ name ∧ other ∉ newer := by
  induction names generalizing taken with
  | nil => simp [outOfTurn?] at h
  | cons name names ih =>
    unfold outOfTurn? at h
    split at h
    next found hfind =>
      obtain rfl := Option.some.inj h
      have hnot := List.find?_some hfind
      simp only [List.contains_eq_mem, List.mem_cons, Bool.not_eq_true', decide_eq_false_iff_not,
        not_or] at hnot
      exact ⟨hnot.2, [], name, names, rfl, List.mem_of_find?_eq_some hfind, hnot.1,
        List.not_mem_nil⟩
    next =>
      obtain ⟨htaken, newer, name', older, heq, hdep, hne, hnewer⟩ := ih h
      obtain ⟨hname, htaken⟩ := not_or.mp (mt List.mem_cons.mpr htaken)
      refine ⟨htaken, name :: newer, name', older, by rw [heq, List.cons_append], hdep, hne, ?_⟩
      exact fun hm => (List.mem_cons.mp hm).elim hname hnewer

/-- When nothing is reported, all dependents of a name are taken with it or before.
-/
theorem outOfTurn?_eq_none {taken names newer older : List String} {name other : String}
    (h : d.outOfTurn? taken names = none) (heq : names = newer ++ name :: older)
    (hdep : other ∈ d.dependents name) : other = name ∨ other ∈ newer ∨ other ∈ taken := by
  induction newer generalizing taken names with
  | nil =>
    subst heq
    rw [List.nil_append] at h
    unfold outOfTurn? at h
    split at h
    next => contradiction
    next hfind =>
      have htaken := List.find?_eq_none.mp hfind other hdep
      simp only [List.contains_eq_mem, List.mem_cons, Bool.not_eq_true', decide_eq_false_iff_not,
        not_or, not_and_or, not_not] at htaken
      rcases htaken with hname | htaken
      · exact Or.inl hname
      · exact Or.inr (Or.inr htaken)
  | cons first newer ih =>
    subst heq
    rw [List.cons_append] at h
    unfold outOfTurn? at h
    split at h
    next => contradiction
    next =>
      rcases ih h rfl with hname | hnewer | htaken
      · exact Or.inl hname
      · exact Or.inr (Or.inl (List.mem_cons_of_mem _ hnewer))
      · rcases List.mem_cons.mp htaken with rfl | htaken
        · exact Or.inr (Or.inl List.mem_cons_self)
        · exact Or.inr (Or.inr htaken)

/-! ### The search that an order comes from -/

/-- The search of all targets along the dependencies that name targets. -/
def wholeSearch (d : Dependencies) : Search :=
  Search.visitAll d.resolved.of d.names

/-- An order is the finished names from the first to the last, with nothing to
report. -/
theorem buildOrder_eq_ok {order : List String} (h : d.buildOrder = .ok order) :
    (∀ a ∈ d.wholeSearch.discovered, a ∉ d.resolved.of a) ∧
      d.resolved.outOfTurn? [] d.wholeSearch.finished = none ∧
      order = d.wholeSearch.finished.reverse := by
  rw [buildOrder, names_resolved] at h
  split at h
  next => contradiction
  next hself =>
    split at h
    next => contradiction
    next hturn =>
      refine ⟨fun a ha hmem => ?_, hturn, (Except.ok.inj h).symm⟩
      exact List.find?_eq_none.mp hself a (List.mem_reverse.mpr ha)
        (List.contains_iff_mem.mpr hmem)

/-- A reported target depends on itself, or is taken out of turn. -/
theorem buildOrder_eq_error {cycle : DependencyCycle} (h : d.buildOrder = .error cycle) :
    cycle.target ∈ d.resolved.of cycle.target ∨
      d.resolved.outOfTurn? [] d.wholeSearch.finished = some cycle.target := by
  rw [buildOrder, names_resolved] at h
  split at h
  next name hself =>
    have hmem := List.find?_some hself
    rw [List.contains_iff_mem] at hmem
    exact Or.inl (Except.error.inj h ▸ hmem)
  next =>
    split at h
    next name hturn => exact Or.inr (Except.error.inj h ▸ hturn)
    next => contradiction

/-- The search finishes every target once. -/
theorem perm_finished_wholeSearch (hd : d.names.Nodup) :
    d.wholeSearch.finished.Perm d.names :=
  Search.perm_finished_visitAll (fun _ _ => of_resolved_subset) hd

theorem mem_discovered_wholeSearch {a : String} :
    a ∈ d.wholeSearch.discovered ↔ a ∈ d.names :=
  (Search.sound_visitAll fun _ _ => of_resolved_subset).2.2 a

/-! ### Orders -/

/-- In a list without repeats, what stands behind a name is found at a larger index.
-/
theorem idxOf_lt_of_mem_after {before after : List String} {a b : String}
    (hnodup : (before ++ b :: after).Nodup) (ha : a ∈ after) :
    (before ++ b :: after).idxOf b < (before ++ b :: after).idxOf a := by
  obtain ⟨-, hafter, hdisjoint⟩ := List.nodup_append.mp hnodup
  have hb : b ∉ before := fun hm => hdisjoint b hm b List.mem_cons_self rfl
  have ha' : a ∉ before := fun hm => hdisjoint a hm a (List.mem_cons_of_mem _ ha) rfl
  have hne : b ≠ a := fun e => (List.nodup_cons.mp hafter).1 (e ▸ ha)
  rw [List.idxOf_append, if_neg hb, List.idxOf_append, if_neg ha', List.idxOf_cons_self,
    List.idxOf_cons_ne _ hne]
  omega

/-- The order that is given has every target once, after all that it depends on: the
search finishes every target, and no target of the order is out of turn. -/
theorem isBuildOrder_of_buildOrder (hd : d.names.Nodup) {order : List String}
    (h : d.buildOrder = .ok order) : d.IsBuildOrder order := by
  obtain ⟨hself, hturn, rfl⟩ := buildOrder_eq_ok h
  have hperm := perm_finished_wholeSearch hd
  refine ⟨(List.reverse_perm _).trans hperm, fun a b _ hab => ?_⟩
  have hne : a ≠ b := by
    rintro rfl
    exact hself a (mem_discovered_wholeSearch.mpr hab.mem_left) (dependsOn_iff.mp hab)
  have hdep : a ∈ d.resolved.dependents b :=
    (mem_dependents_iff (by rwa [names_resolved])).mpr (dependsOn_iff.mp hab)
  obtain ⟨newer, older, hfin⟩ := List.append_of_mem (hperm.mem_iff.mpr hab.2)
  have hnewer : a ∈ newer := by
    rcases outOfTurn?_eq_none hturn hfin hdep with hab | hnewer | hnil
    · exact absurd hab hne
    · exact hnewer
    · exact absurd hnil List.not_mem_nil
  have hrev : d.wholeSearch.finished.reverse = older.reverse ++ b :: newer.reverse := by
    rw [hfin]
    simp
  have hnodup := (List.reverse_perm _).nodup_iff.mpr (hperm.nodup_iff.mpr hd)
  rw [hrev] at hnodup ⊢
  exact idxOf_lt_of_mem_after hnodup (List.mem_reverse.mpr hnewer)

/-! ### Cycles -/

/-- A target that is finished before one that it depends on leads back to itself.
This is where a cycle is told from an order. -/
theorem leads_of_finished_before (hd : d.names.Nodup) {newer older : List String}
    {name other : String} (hfin : d.wholeSearch.finished = newer ++ name :: older)
    (holder : other ∈ older) (hedge : d.DependsOn other name) : d.Leads other other := by
  obtain ⟨between, rest, rfl⟩ := List.append_of_mem holder
  have hnot : name ∉ rest := by
    have hnodup := (perm_finished_wholeSearch hd).nodup_iff.mpr hd
    rw [hfin] at hnodup
    intro hm
    have hbehind : name ∈ between ++ other :: rest :=
      List.mem_append_right _ (List.mem_cons_of_mem _ hm)
    exact (List.nodup_cons.mp (List.nodup_append.mp hnodup).2.1).1 hbehind
  have hsplit : d.wholeSearch.finished = (newer ++ name :: between) ++ other :: rest := by
    rw [hfin]
    simp
  have hreach := Search.reaches_of_finished_before (fun _ _ => of_resolved_subset) hsplit
    (dependsOn_iff.mp hedge) hnot
  exact leads_of_reaches hedge hreach

/-- The target of a reported cycle leads to itself. It depends on a target that was
not finished before it, and such a target leads back to it. -/
theorem leads_of_buildOrder_error (hd : d.names.Nodup) {cycle : DependencyCycle}
    (h : d.buildOrder = .error cycle) : d.Leads cycle.target cycle.target := by
  rcases buildOrder_eq_error h with hself | hturn
  · exact .direct (dependsOn_iff.mpr hself)
  · obtain ⟨-, newer, name, older, hfin, hdep, hne, hnewer⟩ := outOfTurn?_eq_some hturn
    have hedge : d.DependsOn cycle.target name :=
      dependsOn_iff.mpr ((mem_dependents_iff (by rwa [names_resolved])).mp hdep)
    have hmem := (perm_finished_wholeSearch hd).mem_iff.mpr hedge.mem_left
    rw [hfin] at hmem
    rcases List.mem_append.mp hmem with hm | hm
    · exact absurd hm hnewer
    · exact leads_of_finished_before hd hfin ((List.mem_cons.mp hm).resolve_left hne) hedge

/-! ### Catalogs -/

/-- **A build order of a catalog** lists every target once and no other name, and
each target after all targets among its dependencies, whatever unknown and repeated
names there are. -/
theorem buildOrder_ok {c : Catalog} {order : List String}
    (h : (ofCatalog c).buildOrder = .ok order) :
    order.Perm c.names ∧ order.Nodup ∧ (ofCatalog c).IsBuildOrder order := by
  have hd := nodup_names_ofCatalog c
  have horder := isBuildOrder_of_buildOrder hd h
  exact ⟨horder.perm.trans (names_ofCatalog_perm c), horder.perm.nodup_iff.mpr hd, horder⟩

/-- Three libraries, one of which repeats a dependency and names an unknown one. -/
def layered : Catalog :=
  Catalog.empty.offers [.bare .library "app" "app" ["core", "zlib", "util", "core"] none,
    .bare .library "core" "core" ["util"] none, .bare .library "util" "util" [] none]

/-- The repeated and the unknown dependency do not keep three layers from being
ordered. -/
theorem buildOrder_ok_layered :
    (ofCatalog layered).buildOrder = .ok ["util", "core", "app"] ∧
      (ofCatalog layered).IsBuildOrder ["util", "core", "app"] := by
  have h : (ofCatalog layered).buildOrder = .ok ["util", "core", "app"] := by cbv
  exact ⟨h, (buildOrder_ok h).2.2⟩

/-- **A reported target lies on a cycle**: it is a target of the catalog that leads
to itself along dependencies that are targets. So a catalog whose targets form no
cycle has a build order. -/
theorem buildOrder_cycle (c : Catalog) :
    (∀ cycle, (ofCatalog c).buildOrder = .error cycle →
      cycle.target ∈ c.names ∧ (ofCatalog c).Leads cycle.target cycle.target) ∧
    ((∀ a ∈ c.names, ¬ (ofCatalog c).Leads a a) →
      ∃ order, (ofCatalog c).buildOrder = .ok order) := by
  have hcycle : ∀ cycle, (ofCatalog c).buildOrder = .error cycle →
      cycle.target ∈ c.names ∧ (ofCatalog c).Leads cycle.target cycle.target := by
    intro cycle h
    have hleads := leads_of_buildOrder_error (nodup_names_ofCatalog c) h
    exact ⟨(names_ofCatalog_perm c).mem_iff.mp hleads.mem_left, hleads⟩
  refine ⟨hcycle, fun hacyclic => ?_⟩
  cases h : (ofCatalog c).buildOrder with
  | ok order => exact ⟨order, rfl⟩
  | error cycle =>
    obtain ⟨hmem, hleads⟩ := hcycle cycle h
    exact absurd hleads (hacyclic _ hmem)

/-- Three libraries, the last two of which depend on each other. -/
def knotted : Catalog :=
  Catalog.empty.offers [.bare .library "a" "a" ["b", "x"] none, .bare .library "b" "b" ["c"] none,
    .bare .library "c" "c" ["b"] none]

/-- Of two libraries that depend on each other, the one that is reported leads to
itself. -/
theorem buildOrder_cycle_knotted :
    (ofCatalog knotted).buildOrder = .error ⟨"c"⟩ ∧ (ofCatalog knotted).Leads "c" "c" := by
  have h : (ofCatalog knotted).buildOrder = .error ⟨"c"⟩ := by cbv
  exact ⟨h, ((buildOrder_cycle knotted).1 _ h).2⟩

end Dependencies

end SolutionTree
