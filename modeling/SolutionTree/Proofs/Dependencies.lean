import SolutionTree.Dependencies
import SolutionTree.Proofs.Catalog

/-!
The dependencies of a catalog, as they are looked up.

The names of `Dependencies.ofCatalog c` are the catalog's, each once, and what is
found under the name of a target is what that target depends on (`of_ofCatalog`).
Only targets have dependencies at all (`mem_names_of_mem_of`).
-/

namespace SolutionTree

/-- A target without files that declares dependencies. -/
def Target.bare (kind : Target.Kind) (name relativeDir : String) (dependencies : List String)
    (owner : Option Owner) : Target where
  name := name
  kind := kind
  id := .nil
  relativeDir := relativeDir
  files := { path := ⟨relativeDir⟩ }
  manifest := { dependencies }
  owner := owner

namespace Dependencies

/-- The dependencies of a catalog are those of its targets, one entry for each; only
the order is another one. -/
theorem edges_ofCatalog_perm (c : Catalog) :
    (ofCatalog c).edges.Perm (c.targets.map fun t => (t.name, c.dependenciesOf t)) :=
  List.mergeSort_perm _ _

theorem names_ofCatalog_perm (c : Catalog) : (ofCatalog c).names.Perm c.names := by
  have h := (edges_ofCatalog_perm c).map Prod.fst
  rw [List.map_map] at h
  exact h

theorem nodup_names_ofCatalog (c : Catalog) : (ofCatalog c).names.Nodup :=
  (names_ofCatalog_perm c).nodup_iff.mpr c.distinct

/-- A look-up by name gives what the target of that name depends on: names are not
given twice, so no other entry stands before it. -/
theorem of_ofCatalog {c : Catalog} {t : Target} (h : t ∈ c.targets) :
    (ofCatalog c).of t.name = c.dependenciesOf t := by
  have hm : (t.name, c.dependenciesOf t) ∈ (ofCatalog c).edges :=
    (edges_ofCatalog_perm c).mem_iff.mpr (List.mem_map.mpr ⟨t, h, rfl⟩)
  have hl := (Association.lookup_eq_some_iff_mem (nodup_names_ofCatalog c)).mpr hm
  rw [of, hl, Option.getD_some]

/-- What is looked up stands in the list of edges. -/
theorem mem_edges_of_mem_of {d : Dependencies} {a b : String} (h : b ∈ d.of a) :
    (a, d.of a) ∈ d.edges := by
  unfold of at h ⊢
  cases hl : d.edges.lookup a with
  | none => simp [hl] at h
  | some names =>
    obtain ⟨before, after, he, -⟩ := List.lookup_eq_some_iff.mp hl
    simp [he]

/-- What depends on something is a target: unknown names have no dependencies. -/
theorem mem_names_of_mem_of {d : Dependencies} {a b : String} (h : b ∈ d.of a) :
    a ∈ d.names :=
  List.mem_map.mpr ⟨_, mem_edges_of_mem_of h, rfl⟩

end Dependencies

end SolutionTree
