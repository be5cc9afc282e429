import Mathlib.Data.List.Forall2
import Mathlib.Data.Option.Basic
import SolutionTree.Proofs.Solution.Members

/-!
Catalogs that show the same names and directories.

A catalog looks targets up by their names, kinds and directories, and a reference is
a name and an identifier. So catalogs whose targets agree in these, one by one
(`Alike`), find the same (`Alike.find?`), take a declared name for the same
(`Alike.canonicalName`) and pick the same main target (`Alike.selectMain`), whatever
their manifests say. Their solutions have members in the same order
(`exists_assemble_of_alike`).
-/

namespace SolutionTree

/-- Two targets that others cannot tell apart. -/
structure Target.Alike (t u : Target) : Prop where
  name : t.name = u.name
  kind : t.kind = u.kind
  id : t.id = u.id
  relativeDir : t.relativeDir = u.relativeDir

/-! ### Lists of related elements -/

section Lists

variable {α β : Type} {R : α → β → Prop} {l : List α} {l' : List β}

/-- Related lists have related first elements with a property that the relation
respects. -/
theorem rel_find? {p : α → Bool} {q : β → Bool} (h : List.Forall₂ R l l')
    (hpq : ∀ a b, R a b → p a = q b) : Option.Rel R (l.find? p) (l'.find? q) := by
  induction h with
  | nil => exact .none
  | @cons a b _ _ hab _ ih =>
    rw [List.find?_cons, List.find?_cons, hpq a b hab]
    cases q b with
    | true => exact .some hab
    | false => exact ih

theorem forall₂_filter {p : α → Bool} {q : β → Bool} (h : List.Forall₂ R l l')
    (hpq : ∀ a b, R a b → p a = q b) : List.Forall₂ R (l.filter p) (l'.filter q) := by
  induction h with
  | nil => exact .nil
  | @cons a b _ _ hab _ ih =>
    rw [List.filter_cons, List.filter_cons, hpq a b hab]
    cases q b with
    | true => exact .cons hab ih
    | false => exact ih

/-- Lists of related elements are sorted alike if related elements are ordered
alike. -/
theorem forall₂_mergeSort {le : α → α → Bool} {le' : β → β → Bool} (h : List.Forall₂ R l l')
    (hle : ∀ a a' b b', R a b → R a' b' → le a a' = le' b b') :
    List.Forall₂ R (l.mergeSort le) (l'.mergeSort le') := by
  obtain ⟨pairs, hpairs, rfl, rfl⟩ : ∃ pairs : List (α × β), (∀ p ∈ pairs, R p.1 p.2) ∧
      pairs.map Prod.fst = l ∧ pairs.map Prod.snd = l' := by
    induction h with
    | nil => exact ⟨[], by simp, rfl, rfl⟩
    | @cons a b _ _ hab _ ih =>
      obtain ⟨pairs, hpairs, rfl, rfl⟩ := ih
      exact ⟨(a, b) :: pairs, List.forall_mem_cons.mpr ⟨hab, hpairs⟩, rfl, rfl⟩
  have hfst := List.map_mergeSort (r := fun p q : α × β => le p.1 q.1) (s := le) (l := pairs)
    (f := Prod.fst) fun _ _ _ _ => rfl
  have hsnd := List.map_mergeSort (r := fun p q : α × β => le p.1 q.1) (s := le') (l := pairs)
    (f := Prod.snd) fun p hp q hq => hle _ _ _ _ (hpairs p hp) (hpairs q hq)
  rw [← hfst, ← hsnd, List.forall₂_map_left_iff, List.forall₂_map_right_iff, List.forall₂_same]
  exact fun p hp => hpairs p (List.mem_mergeSort.mp hp)

end Lists

/-! ### Look-ups -/

namespace Catalog

/-- Two catalogs whose targets others cannot tell apart, one by one. -/
def Alike (c d : Catalog) : Prop :=
  List.Forall₂ Target.Alike c.targets d.targets

namespace Alike

variable {c d : Catalog} (h : c.Alike d)
include h

/-- A name finds targets that others cannot tell apart, or none in either catalog.
-/
theorem find? (name : String) : Option.Rel Target.Alike (c.find? name) (d.find? name) := by
  rw [Catalog.find?_eq, Catalog.find?_eq]
  exact rel_find? h fun _ _ hab => by rw [hab.name]

/-- A directory finds targets that others cannot tell apart, or none in either
catalog. -/
theorem findDir? (relativeDir : String) :
    Option.Rel Target.Alike (c.findDir? relativeDir) (d.findDir? relativeDir) := by
  rw [Catalog.findDir?_eq, Catalog.findDir?_eq]
  exact rel_find? (List.forall₂_reverse_iff.mpr h) fun _ _ hab => by rw [hab.relativeDir]

theorem onlyExecutable? : Option.Rel Target.Alike c.onlyExecutable? d.onlyExecutable? := by
  have hfilter := forall₂_filter (p := fun t : Target => decide (t.kind = .executable))
    (q := fun t : Target => decide (t.kind = .executable)) h fun _ _ hab => by rw [hab.kind]
  unfold Catalog.onlyExecutable?
  generalize c.targets.filter (fun t => decide (t.kind = .executable)) = l at hfilter ⊢
  generalize d.targets.filter (fun t => decide (t.kind = .executable)) = l' at hfilter ⊢
  cases hfilter with
  | nil => exact .none
  | cons hab hrest =>
    cases hrest with
    | nil => exact .some hab
    | cons => exact .none

/-- What a declared name stands for is alike in both catalogs, since it is found by
names and directories. -/
theorem resolve? (declaringDir name : String) :
    Option.Rel Target.Alike (c.resolve? declaringDir name) (d.resolve? declaringDir name) := by
  have hname := h.find? name
  have hbeside := h.findDir? (siblingDir declaringDir name)
  unfold Catalog.resolve?
  generalize c.find? name = x at hname ⊢
  generalize d.find? name = y at hname ⊢
  cases hname with
  | some hab => exact .some hab
  | none =>
    dsimp only
    generalize c.findDir? (siblingDir declaringDir name) = x at hbeside ⊢
    generalize d.findDir? (siblingDir declaringDir name) = y at hbeside ⊢
    cases hbeside with
    | some hab => exact .some hab
    | none => exact h.findDir? (withoutSlashes name)

/-- A declared name stands for the same. -/
theorem canonicalName (declaringDir name : String) :
    c.canonicalName declaringDir name = d.canonicalName declaringDir name := by
  have hresolve := h.resolve? declaringDir name
  unfold Catalog.canonicalName
  generalize c.resolve? declaringDir name = x at hresolve ⊢
  generalize d.resolve? declaringDir name = y at hresolve ⊢
  cases hresolve with
  | some hab => exact hab.name
  | none => rfl

/-- The same main target is picked. -/
theorem selectMain (wanted : Option String) : c.selectMain wanted = d.selectMain wanted := by
  unfold Catalog.selectMain
  cases wanted.filter (· ≠ "") with
  | none =>
    have honly := h.onlyExecutable?
    generalize c.onlyExecutable? = x at honly ⊢
    generalize d.onlyExecutable? = y at honly ⊢
    cases honly with
    | some hab => simp only [Option.map_some, hab.name]
    | none => rfl
  | some name =>
    dsimp only
    have hfind := h.find? name
    generalize c.find? name = x at hfind ⊢
    generalize d.find? name = y at hfind ⊢
    cases hfind with
    | some hab => simp only [hab.kind]
    | none => rfl

/-- A name has the same identifier. -/
theorem identifiers_get? (name : String) : c.identifiers.get? name = d.identifiers.get? name := by
  rw [Catalog.identifiers_get?, Catalog.identifiers_get?]
  have hfind := h.find? name
  generalize c.find? name = x at hfind ⊢
  generalize d.find? name = y at hfind ⊢
  cases hfind with
  | some hab => simp only [Option.map_some, hab.id]
  | none => rfl

/-- Targets that declare the same depend on the same, as the names that they declare
stand for the same. -/
theorem dependenciesOf {t u : Target} (halike : t.Alike u) (hmanifest : t.manifest = u.manifest)
    (howner : t.owner = u.owner) : c.dependenciesOf t = d.dependenciesOf u := by
  have hcanonical : c.canonicalName = d.canonicalName := by
    funext declaringDir name
    exact h.canonicalName declaringDir name
  have hrunnable : t.runnableOwner? = u.runnableOwner? := by
    rw [Target.runnableOwner?, Target.runnableOwner?, halike.kind, howner]
  rw [Catalog.dependenciesOf, Catalog.dependenciesOf, hrunnable, hcanonical, hmanifest,
    halike.relativeDir]

end Alike

end Catalog

/-! ### Solutions -/

theorem Target.Alike.fileName {t u : Target} (h : t.Alike u) (extension : String) :
    t.fileName extension = u.fileName extension := by
  rw [Target.fileName, Target.fileName, h.name]

/-- Members are ordered by what targets that are alike have in common. -/
theorem Member.inOrder_congr {main : Option String} {m n m' n' : Member}
    (h : m.target.Alike n.target)
    (hfile : m.fileName = n.fileName) (h' : m'.target.Alike n'.target)
    (hfile' : m'.fileName = n'.fileName) : inOrder main m m' = inOrder main n n' := by
  have hrank : ∀ {m n : Member}, m.target.Alike n.target → rank main m = rank main n := by
    intro m n hmn
    rw [rank, rank, hmn.name, hmn.kind]
  rw [inOrder, inOrder, order, order, hrank h, hrank h', hfile, hfile']

/-- **Catalogs that are alike are assembled alike**: the members of related targets
stand in one order. -/
theorem Solution.exists_assemble_of_alike {c d : Catalog} {e e' : Dependencies}
    {options : SolutionOptions} {s : Solution} {R : Target → Target → Prop}
    (h : List.Forall₂ R c.targets d.targets) (hR : ∀ t u, R t u → t.Alike u)
    (hs : assemble c e options = .ok s) :
    ∃ s', assemble d e' options = .ok s' ∧ s.main = s'.main ∧
      List.Forall₂ (fun m m' => ∃ t u, R t u ∧
        Member.ofTarget c.identifiers e options.extension t = m ∧
        Member.ofTarget d.identifiers e' options.extension u = m') s.members s'.members := by
  have halike : c.Alike d := h.imp hR
  obtain ⟨main, hmain, rfl⟩ := assemble_eq_ok_iff.mp hs
  rw [halike.selectMain] at hmain
  refine ⟨_, assemble_eq_ok_iff.mpr ⟨main, hmain, rfl⟩, rfl, forall₂_mergeSort ?_ ?_⟩
  · rw [List.forall₂_map_left_iff, List.forall₂_map_right_iff]
    exact h.imp fun t u htu => ⟨t, u, htu, rfl, rfl⟩
  · rintro _ _ _ _ ⟨t, u, htu, rfl, rfl⟩ ⟨t', u', htu', rfl, rfl⟩
    exact Member.inOrder_congr (hR t u htu) ((hR t u htu).fileName _) (hR t' u' htu')
      ((hR t' u' htu').fileName _)

end SolutionTree
