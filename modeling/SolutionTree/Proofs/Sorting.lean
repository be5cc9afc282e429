import Mathlib.Data.List.Nodup
import Mathlib.Data.Nat.Basic
import Mathlib.Order.Lattice

/-!
Lists that are sorted by a key.

Sorting puts smaller keys first (`pairwise_sortBy`). If no two elements have one
key, the order that a list was in before is lost (`sortBy_eq_of_perm`), and the keys
are strictly increasing (`pairwise_lt_of_nodup`). A sorted list falls into two parts
at any key (`eq_append_of_pairwise_le`), and into one part for each key if the keys
are small numbers (`eq_flatMap_range_filter`). What is no greater than an element of
a strictly sorted list is what stands up to there (`mem_take_succ_iff`), and what is
less is what stands before it (`mem_before_iff`), so that the first element of a
kind is the least one (`exists_first_iff`).
-/

namespace SolutionTree.Sorting

variable {α κ : Type} [LinearOrder κ] {key : α → κ} {l l' : List α}

theorem pairwise_sortBy (key : α → κ) (l : List α) :
    (l.mergeSort fun a b => decide (key a ≤ key b)).Pairwise fun a b => key a ≤ key b := by
  have htrans : ∀ a b c, decide (key a ≤ key b) = true → decide (key b ≤ key c) = true →
      decide (key a ≤ key c) = true := by
    intro a b c hab hbc
    simp only [decide_eq_true_eq] at hab hbc ⊢
    exact hab.trans hbc
  have htotal : ∀ a b, (decide (key a ≤ key b) || decide (key b ≤ key a)) = true := by
    intro a b
    simpa using le_total (key a) (key b)
  exact (List.pairwise_mergeSort htrans htotal l).imp fun h => of_decide_eq_true h

/-- Lists of the same elements are sorted alike, if no two of these have one key:
with equal keys, a stable sort would show the order that they came in. -/
theorem sortBy_eq_of_perm (hkeys : (l.map key).Nodup) (h : l.Perm l') :
    l.mergeSort (fun a b => decide (key a ≤ key b)) =
      l'.mergeSort fun a b => decide (key a ≤ key b) := by
  have hperm := (List.mergeSort_perm l fun a b => decide (key a ≤ key b)).trans
    (h.trans (List.mergeSort_perm l' fun a b => decide (key a ≤ key b)).symm)
  refine List.Perm.eq_of_pairwise ?_ (pairwise_sortBy key l) (pairwise_sortBy key l') hperm
  intro a b ha hb hab hba
  rw [List.mem_mergeSort] at ha hb
  exact List.inj_on_of_nodup_map hkeys ha (h.mem_iff.mpr hb) (le_antisymm hab hba)

/-- What is left of a list is sorted as it is left of the sorted list. So a part of
what is sorted can be taken before or after. -/
theorem sortBy_filter (hkeys : (l.map key).Nodup) {keep : α → Bool} :
    (l.filter keep).mergeSort (fun a b => decide (key a ≤ key b)) =
      (l.mergeSort fun a b => decide (key a ≤ key b)).filter keep := by
  have hperm : (l.filter keep).Perm ((l.mergeSort fun a b => decide (key a ≤ key b)).filter keep) :=
    (List.mergeSort_perm l _).symm.filter keep
  have hnodup : ((l.filter keep).map key).Nodup := hkeys.sublist (List.filter_sublist.map key)
  rw [sortBy_eq_of_perm hnodup hperm]
  apply List.mergeSort_of_pairwise
  exact ((pairwise_sortBy key l).sublist List.filter_sublist).imp decide_eq_true

/-- Sorted keys without repeats increase strictly. -/
theorem pairwise_lt_of_nodup (hsorted : l.Pairwise fun a b => key a ≤ key b)
    (hkeys : (l.map key).Nodup) : l.Pairwise fun a b => key a < key b := by
  refine (hsorted.and (List.pairwise_map.mp hkeys)).imp ?_
  rintro a b ⟨hle, hne⟩
  exact lt_of_le_of_ne hle hne

/-- A sorted list is what lies below a key and then the rest. -/
theorem eq_append_of_pairwise_le (hsorted : l.Pairwise fun a b => key a ≤ key b) (k : κ) :
    l = l.filter (fun a => decide (key a < k)) ++ l.filter fun a => decide (k ≤ key a) := by
  induction l with
  | nil => rfl
  | cons a l ih =>
    obtain ⟨hfirst, hrest⟩ := List.pairwise_cons.mp hsorted
    by_cases ha : key a < k
    · rw [List.filter_cons_of_pos (by simpa using ha),
        List.filter_cons_of_neg (by simpa using ha), List.cons_append, ← ih hrest]
    · -- Nothing behind an element that is not below the key is below it either.
      have hge : ∀ b ∈ a :: l, k ≤ key b := by
        intro b hb
        rcases List.mem_cons.mp hb with rfl | hb
        · exact not_lt.mp ha
        · exact (not_lt.mp ha).trans (hfirst b hb)
      have hnone : (a :: l).filter (fun b => decide (key b < k)) = [] := by
        simpa using hge
      rw [hnone, List.nil_append, List.filter_eq_self.mpr]
      simpa using hge

/-- A list that is sorted by small numbers is the elements of each number, one
number after another. -/
theorem eq_flatMap_range_filter {key : α → Nat} {n : Nat} (hbound : ∀ a ∈ l, key a < n)
    (hsorted : l.Pairwise fun a b => key a ≤ key b) :
    l = (List.range n).flatMap fun k => l.filter fun a => decide (key a = k) := by
  induction n generalizing l with
  | zero => exact List.eq_nil_iff_forall_not_mem.mpr fun a ha => Nat.not_lt_zero _ (hbound a ha)
  | succ n ih =>
    have hsmall := ih (l := l.filter fun a => decide (key a < n)) (by simp)
      (hsorted.sublist List.filter_sublist)
    have hlast : (l.filter fun a => decide (n ≤ key a)) = l.filter fun a => decide (key a = n) := by
      refine List.filter_congr fun a ha => decide_eq_decide.mpr ?_
      have := hbound a ha
      omega
    have hothers : ∀ k ∈ List.range n,
        ((l.filter fun a => decide (key a < n)).filter fun a => decide (key a = k)) =
          l.filter fun a => decide (key a = k) := by
      intro k hk
      rw [List.mem_range] at hk
      rw [List.filter_filter]
      refine List.filter_congr fun a _ => ?_
      rw [← Bool.decide_and, decide_eq_decide]
      omega
    rw [List.range_succ, List.flatMap_append, List.flatMap_singleton, ← hlast,
      ← List.flatMap_congr hothers, ← hsmall]
    exact eq_append_of_pairwise_le hsorted n

/-- In an increasing list, the keys up to an index are those that are no greater
than the key there. The rank of a directory comes down to this. -/
theorem mem_take_succ_iff {keys : List κ} (hsorted : keys.Pairwise (· < ·)) {i : Nat}
    (hi : i < keys.length) {k : κ} : k ∈ keys.take (i + 1) ↔ k ∈ keys ∧ k ≤ keys[i] := by
  rw [List.pairwise_iff_getElem] at hsorted
  constructor
  · intro hk
    obtain ⟨j, hj, rfl⟩ := List.mem_take_iff_getElem.mp hk
    refine ⟨List.getElem_mem _, ?_⟩
    rcases Nat.lt_or_eq_of_le (Nat.lt_succ_iff.mp (Nat.lt_min.mp hj).1) with hlt | rfl
    · exact (hsorted j i _ hi hlt).le
    · exact le_rfl
  · rintro ⟨hk, hle⟩
    obtain ⟨j, hj, rfl⟩ := List.mem_iff_getElem.mp hk
    have hji : j ≤ i := by
      by_contra hlt
      exact absurd hle (not_le.mpr (hsorted i j hi hj (Nat.lt_of_not_le hlt)))
    exact List.mem_take_iff_getElem.mpr ⟨j, Nat.lt_min.mpr ⟨Nat.lt_succ_of_le hji, hj⟩, rfl⟩

/-! ### First elements -/

/-- The first element of a kind is the first one of the list, or it is that of the
rest. -/
theorem exists_first_cons_iff {P Q : α → Prop} {x : α} {l : List α} :
    (∃ before a after, x :: l = before ++ a :: after ∧ P a ∧ ∀ b ∈ before, Q b) ↔
      P x ∨ Q x ∧ ∃ before a after, l = before ++ a :: after ∧ P a ∧ ∀ b ∈ before, Q b := by
  simp only [List.cons_eq_append_iff]
  constructor
  · rintro ⟨before, a, after, ⟨rfl, hsplit⟩ | ⟨rest, rfl, rfl⟩, ha, hbefore⟩
    · obtain ⟨rfl, rfl⟩ := List.cons.inj hsplit
      exact .inl ha
    · obtain ⟨hx, hrest⟩ := List.forall_mem_cons.mp hbefore
      exact .inr ⟨hx, rest, a, after, rfl, ha, hrest⟩
  · rintro (hx | ⟨hx, before, a, after, rfl, ha, hbefore⟩)
    · exact ⟨[], x, l, .inl ⟨rfl, rfl⟩, hx, by simp⟩
    · exact ⟨x :: before, a, after, .inr ⟨before, rfl, rfl⟩, ha,
        List.forall_mem_cons.mpr ⟨hx, hbefore⟩⟩

theorem exists_first_map_iff {β : Type} {f : α → β} {P Q : β → Prop} :
    (∃ before b after, l.map f = before ++ b :: after ∧ P b ∧ ∀ c ∈ before, Q c) ↔
      ∃ before a after, l = before ++ a :: after ∧ P (f a) ∧ ∀ c ∈ before, Q (f c) := by
  induction l with
  | nil => simp
  | cons x l ih => rw [List.map_cons, exists_first_cons_iff, exists_first_cons_iff, ih]

/-- What stands before an element of a strictly sorted list is what is less than it.
-/
theorem mem_before_iff {before after : List α} {a b : α}
    (h : (before ++ a :: after).Pairwise fun x y => key x < key y) :
    b ∈ before ↔ b ∈ before ++ a :: after ∧ key b < key a := by
  obtain ⟨-, htail, hcross⟩ := List.pairwise_append.mp h
  constructor
  · intro hb
    exact ⟨List.mem_append_left _ hb, hcross b hb a List.mem_cons_self⟩
  · rintro ⟨hb, hlt⟩
    rcases List.mem_append.mp hb with hb | hb
    · exact hb
    · rcases List.mem_cons.mp hb with rfl | hb
      · exact absurd hlt (lt_irrefl _)
      · exact absurd hlt ((List.pairwise_cons.mp htail).1 b hb).not_gt

/-- The first element of a kind in a strictly sorted list is the least one. A search
from the front is then a minimum, which needs no list to be said. -/
theorem exists_first_iff (h : l.Pairwise fun x y => key x < key y) {P Q : α → Prop} :
    (∃ before a after, l = before ++ a :: after ∧ P a ∧ ∀ b ∈ before, Q b) ↔
      ∃ a ∈ l, P a ∧ ∀ b ∈ l, key b < key a → Q b := by
  constructor
  · rintro ⟨before, a, after, rfl, ha, hbefore⟩
    refine ⟨a, by simp, ha, fun b hb hlt => hbefore b ?_⟩
    exact (mem_before_iff h).mpr ⟨hb, hlt⟩
  · rintro ⟨a, hmem, ha, hless⟩
    obtain ⟨before, after, rfl⟩ := List.append_of_mem hmem
    refine ⟨before, a, after, rfl, ha, fun b hb => ?_⟩
    obtain ⟨hb, hlt⟩ := (mem_before_iff h).mp hb
    exact hless b hb hlt

end SolutionTree.Sorting
