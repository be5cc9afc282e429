import Mathlib.Data.List.DropRight
import SolutionTree.Path.Relative
import SolutionTree.Proofs.Text.Pieces

/-!
Paths written with slashes and without slashes at their end.

A solid text has something in it that is neither a slash nor a backslash. Writing a
path that ends with such a text leaves what stands before it alone, but for the
backslashes (`slashed_append`).
-/

namespace SolutionTree.Path

/-- Whether a text is more than slashes and backslashes. -/
def IsSolid (s : String) : Prop :=
  ∃ c ∈ s.toList, c ≠ '/' ∧ c ≠ '\\'

instance (s : String) : Decidable (IsSolid s) :=
  decidable_of_iff ((s.toList.any fun c => c != '/' && c != '\\') = true) (by simp [IsSolid])

variable {front s : String}

/-- A text without slashes and backslashes is solid when it has a character at all.
-/
theorem isSolid_of_notMem (hne : s ≠ "") (hslash : '/' ∉ s.toList) (hback : '\\' ∉ s.toList) :
    IsSolid s := by
  obtain ⟨c, cs, hcs⟩ := List.exists_cons_of_ne_nil (mt String.toList_eq_nil_iff.mp hne)
  have hmem : c ∈ s.toList := by simp [hcs]
  exact ⟨c, hmem, ne_of_mem_of_not_mem hmem hslash, ne_of_mem_of_not_mem hmem hback⟩

theorem IsSolid.append_left (h : IsSolid s) (front : String) : IsSolid (front ++ s) := by
  obtain ⟨c, hc, hsolid⟩ := h
  exact ⟨c, by simp [hc], hsolid⟩

theorem IsSolid.append_right (h : IsSolid s) (back : String) : IsSolid (s ++ back) := by
  obtain ⟨c, hc, hsolid⟩ := h
  exact ⟨c, by simp [hc], hsolid⟩

/-- Something of a solid text is left when its slashes are gone, whichever way they
lean. -/
theorem exists_mem_replace (h : IsSolid s) : ∃ c ∈ (Text.replace '\\' '/' s).toList, c ≠ '/' := by
  obtain ⟨c, hc, hslash, hback⟩ := h
  refine ⟨c, ?_, hslash⟩
  simp only [Text.replace, String.toList_ofList, List.mem_map]
  exact ⟨c, hc, if_neg hback⟩

theorem rdropWhile_append_of_exists {xs ys : List Char} (h : ∃ c ∈ ys, c ≠ '/') :
    (xs ++ ys).rdropWhile (· == '/') = xs ++ ys.rdropWhile (· == '/') := by
  have hne : ys.reverse.dropWhile (· == '/') ≠ [] := by
    rw [ne_eq, List.dropWhile_eq_nil_iff]
    obtain ⟨c, hc, hslash⟩ := h
    intro hall
    exact hslash (by simpa using hall c (List.mem_reverse.mpr hc))
  simp [List.rdropWhile, List.dropWhile_append, hne]

/-- A solid text keeps something when the slashes at its end are dropped. -/
theorem toList_slashed (h : IsSolid s) :
    (⟨s⟩ : Path).slashed.toList = (Text.replace '\\' '/' s).toList.rdropWhile (· == '/') := by
  obtain ⟨c, hc, hslash⟩ := exists_mem_replace h
  have hne : (Text.replace '\\' '/' s).toList.rdropWhile (· == '/') ≠ [] := by
    rw [ne_eq, List.rdropWhile_eq_nil_iff]
    intro hall
    exact hslash (by simpa using hall c hc)
  rw [List.rdropWhile] at hne
  simp only [slashed, List.rdropWhile]
  rw [if_neg (by simp [List.isEmpty_eq_false_iff.mpr hne]), String.toList_ofList]

/-- **What stands before a solid text** is written with slashes for backslashes and
stays whole. -/
theorem slashed_append (front : String) (h : IsSolid s) :
    (⟨front ++ s⟩ : Path).slashed = Text.replace '\\' '/' front ++ (⟨s⟩ : Path).slashed := by
  apply String.toList_inj.mp
  rw [String.toList_append, toList_slashed h, toList_slashed (h.append_left front),
    Text.replace_append, String.toList_append, rdropWhile_append_of_exists (exists_mem_replace h)]

/-! ### Names without slashes and backslashes -/

section Name

variable (hne : s ≠ "") (hslash : '/' ∉ s.toList) (hback : '\\' ∉ s.toList)
include hne hslash hback

theorem slashed_of_notMem : (⟨s⟩ : Path).slashed = s := by
  apply String.toList_inj.mp
  rw [toList_slashed (isSolid_of_notMem hne hslash hback), Text.replace_of_notMem hback,
    List.rdropWhile_eq_self_iff]
  intro hcs
  simpa using ne_of_mem_of_not_mem (List.getLast_mem hcs) hslash

/-- One slash at the end of a path is no part of how it is written. -/
theorem slashed_append_slash : (⟨s ++ "/"⟩ : Path).slashed = s := by
  have hsolid := isSolid_of_notMem hne hslash hback
  have hslashed := slashed_of_notMem hne hslash hback
  apply String.toList_inj.mp
  rw [← String.toList_inj, toList_slashed hsolid, Text.replace_of_notMem hback] at hslashed
  rw [toList_slashed (hsolid.append_right "/"), Text.replace_append,
    Text.replace_of_notMem hback, Text.replace_of_notMem (s := "/") (by decide),
    String.toList_append, show "/".toList = ['/'] from rfl,
    List.rdropWhile_concat_pos _ _ _ (by simp), hslashed]

end Name

end SolutionTree.Path
