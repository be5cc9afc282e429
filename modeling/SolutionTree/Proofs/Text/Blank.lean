import Mathlib.Data.List.Basic
import SolutionTree.Text.Blank

/-!
Blanks around a text.

`Trims` says what is left of a text without the blanks at its ends, and `trim`
leaves just that (`trims_iff`): nothing but blanks is taken away
(`exists_blanks_trim`), and none are left at an end. To add blanks at an end changes
nothing (`trim_blanks_append`, `trim_append_blanks`).
-/

namespace SolutionTree.Text

variable {before cs after : List Char}

theorem trimStart_append (hbefore : ∀ c ∈ before, isBlank c = true) (cs : List Char) :
    trimStart (before ++ cs) = trimStart cs :=
  List.dropWhile_append_of_pos hbefore

theorem trimEnd_append (cs : List Char) (hafter : ∀ c ∈ after, isBlank c = true) :
    trimEnd (cs ++ after) = trimEnd cs := by
  have hreverse : ∀ c ∈ after.reverse, isBlank c = true :=
    fun c hc => hafter c (List.mem_reverse.mp hc)
  rw [trimEnd, trimEnd, List.reverse_append, List.dropWhile_append_of_pos hreverse]

theorem dropWhile_eq_self_of_not_blank (h : ∀ c ∈ cs, isBlank c = false) :
    cs.dropWhile isBlank = cs := by
  cases cs with
  | nil => rfl
  | cons c cs => exact trimStart_cons_of_not_blank cs (h c List.mem_cons_self)

theorem trimEnd_eq_self_of_not_blank (h : ∀ c ∈ cs, isBlank c = false) : trimEnd cs = cs := by
  rw [trimEnd, dropWhile_eq_self_of_not_blank fun c hc => h c (List.mem_reverse.mp hc),
    List.reverse_reverse]

/-- **Blanks around a text without blanks are taken away**, and the text stays. -/
theorem trim_append (hbefore : ∀ c ∈ before, isBlank c = true)
    (hcs : ∀ c ∈ cs, isBlank c = false) (hafter : ∀ c ∈ after, isBlank c = true) :
    trim (before ++ cs ++ after) = cs := by
  rw [trim, List.append_assoc, trimStart_append hbefore]
  cases cs with
  | nil =>
    have hnone : trimStart after = [] := by
      rw [← List.append_nil after, trimStart_append hafter, trimStart_nil]
    rw [List.nil_append, hnone, trimEnd_nil]
  | cons c cs =>
    rw [List.cons_append, trimStart_cons_of_not_blank _ (hcs c List.mem_cons_self),
      ← List.cons_append, trimEnd_append _ hafter, trimEnd_eq_self_of_not_blank hcs]

/-- Blanks in front do not change what is left of a text. -/
theorem trim_blanks_append (hbefore : ∀ c ∈ before, isBlank c = true) (cs : List Char) :
    trim (before ++ cs) = trim cs := by
  rw [trim, trimStart_append hbefore, trim]

theorem trim_append_blanks (cs : List Char) (hafter : ∀ c ∈ after, isBlank c = true) :
    trim (cs ++ after) = trim cs := by
  have hstart : trimStart (cs ++ after) =
      if (trimStart cs).isEmpty then trimStart after else trimStart cs ++ after :=
    List.dropWhile_append
  rw [trim, trim, hstart]
  split
  next hempty =>
    have hnone : trimStart after = [] := by
      rw [← List.append_nil after, trimStart_append hafter, trimStart_nil]
    rw [hnone, List.isEmpty_iff.mp hempty]
  next => exact trimEnd_append _ hafter

/-- Nothing but blanks is taken away. -/
theorem exists_blanks_trim (cs : List Char) :
    ∃ before after, (∀ c ∈ before, isBlank c = true) ∧ (∀ c ∈ after, isBlank c = true) ∧
      cs = before ++ trim cs ++ after := by
  refine ⟨cs.takeWhile isBlank, ((trimStart cs).reverse.takeWhile isBlank).reverse, ?_, ?_, ?_⟩
  · exact fun c hc => List.all_eq_true.mp List.all_takeWhile c hc
  · exact fun c hc => List.all_eq_true.mp List.all_takeWhile c (List.mem_reverse.mp hc)
  · have hend : trim cs ++ ((trimStart cs).reverse.takeWhile isBlank).reverse = trimStart cs := by
      rw [trim, trimEnd, ← List.reverse_append, List.takeWhile_append_dropWhile,
        List.reverse_reverse]
    rw [List.append_assoc, hend, trimStart, List.takeWhile_append_dropWhile]

/-- What is left of a text: blanks stand before and behind it, and it neither starts
nor ends with one. -/
structure Trims (cs inner : List Char) : Prop where
  split : ∃ before after, (∀ c ∈ before, isBlank c = true) ∧ (∀ c ∈ after, isBlank c = true) ∧
    cs = before ++ inner ++ after
  head : ∀ c, inner.head? = some c → isBlank c = false
  last : ∀ c, inner.getLast? = some c → isBlank c = false

theorem dropWhile_eq_self_of_head {inner : List Char}
    (h : ∀ c, inner.head? = some c → isBlank c = false) : inner.dropWhile isBlank = inner := by
  cases inner with
  | nil => rfl
  | cons c inner => exact trimStart_cons_of_not_blank inner (h c rfl)

/-- What is left when blanks are dropped does not start with one. -/
theorem isBlank_of_head?_dropWhile {cs : List Char} {c : Char}
    (h : (cs.dropWhile isBlank).head? = some c) : isBlank c = false := by
  have hc := List.head?_dropWhile_not isBlank cs
  simpa [h] using hc

/-- **Blanks at both ends are taken away**, and nothing else: what is left neither
starts nor ends with one. -/
theorem trims_iff {inner : List Char} : Trims cs inner ↔ trim cs = inner := by
  constructor
  · rintro ⟨⟨before, after, hbefore, hafter, rfl⟩, hhead, hlast⟩
    have hend : inner.reverse.dropWhile isBlank = inner.reverse :=
      dropWhile_eq_self_of_head fun c hc => hlast c (by rwa [List.head?_reverse] at hc)
    rw [trim_append_blanks _ hafter, trim_blanks_append hbefore, trim, trimStart,
      dropWhile_eq_self_of_head hhead, trimEnd, hend, List.reverse_reverse]
  · rintro rfl
    obtain ⟨before, after, hbefore, hafter, hsplit⟩ := exists_blanks_trim cs
    refine ⟨⟨before, after, hbefore, hafter, hsplit⟩, ?_, ?_⟩
    · -- The text that is left is the front of one that starts with no blank.
      intro c hc
      obtain ⟨back, hback⟩ : trim cs <+: trimStart cs := by
        rw [← List.reverse_suffix, trim, trimEnd, List.reverse_reverse]
        exact List.dropWhile_suffix _
      have hhead : (trimStart cs).head? = some c := by
        rw [← hback, List.head?_append, hc, Option.some_or]
      exact isBlank_of_head?_dropWhile hhead
    · intro c hc
      rw [trim, trimEnd, List.getLast?_reverse] at hc
      exact isBlank_of_head?_dropWhile hc

end SolutionTree.Text
