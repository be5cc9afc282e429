import Mathlib.Data.List.Nodup

/-!
Lists whose keys are distinct.

With distinct keys a search for a key finds exactly the element of the list that has
it (`find?_key_eq_some_iff`), and looking a key up finds exactly the pair that is in
the list (`lookup_eq_some_iff_mem`), whatever the order of the list. A key that is
not there is looked up in vain (`lookup_eq_none_iff`).
-/

namespace SolutionTree.Association

variable {α κ β : Type} [DecidableEq κ]

theorem find?_key_eq_some_iff {key : α → κ} {l : List α} (h : (l.map key).Nodup) {k : κ}
    {a : α} : (l.find? fun x => key x = k) = some a ↔ a ∈ l ∧ key a = k := by
  constructor
  · intro hf
    exact ⟨List.mem_of_find?_eq_some hf, by simpa using List.find?_some hf⟩
  · rintro ⟨ha, rfl⟩
    cases hf : l.find? fun x => key x = key a with
    | none => exact absurd (decide_eq_true rfl) (List.find?_eq_none.mp hf a ha)
    | some x =>
      have hx : key x = key a := by simpa using List.find?_some hf
      rw [List.inj_on_of_nodup_map h (List.mem_of_find?_eq_some hf) ha hx]

/-- In an association list without a key twice, what is looked up is what is there.
-/
theorem lookup_eq_some_iff_mem {k : κ} {b : β} {l : List (κ × β)}
    (h : (l.map Prod.fst).Nodup) : l.lookup k = some b ↔ (k, b) ∈ l := by
  induction l with
  | nil => simp
  | cons p l ih =>
    obtain ⟨k', b'⟩ := p
    rw [List.map_cons, List.nodup_cons] at h
    by_cases hk : k = k'
    · subst hk
      have absent : (k, b) ∉ l := fun hm => h.1 (List.mem_map.mpr ⟨(k, b), hm, rfl⟩)
      simp [absent, eq_comm]
    · have hne : (k == k') = false := by simpa using hk
      rw [List.lookup_cons, hne, ih h.2]
      simp [hk]

theorem lookup_eq_none_iff {k : κ} {l : List (κ × β)} :
    l.lookup k = none ↔ k ∉ l.map Prod.fst := by
  rw [List.lookup_eq_none_iff]
  simp only [bne_iff_ne, List.mem_map, not_exists, not_and]
  exact forall₂_congr fun p _ => ne_comm

end SolutionTree.Association
