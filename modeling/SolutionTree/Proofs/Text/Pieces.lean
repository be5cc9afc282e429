import SolutionTree.Text.Pieces

/-!
Pieces of a text that is put together, and what stands around the last occurrence of
a character.

Texts that are joined by a character have the pieces of both (`pieces_append`), and
texts without the character come back out of what they are joined to
(`pieces_intercalate`), as all pieces are (`notMem_of_mem_pieces`); another
character put for it joins them instead (`replace_intercalate`), and where it is put
for another, the text is cut, too (`pieces_replace`). A text either lacks a
character, or is cut in exactly one way into what stands before its last occurrence
and a rest without it (`exists_last_split`); `beforeLast?` and `afterLast` read off
the two parts.
-/

namespace SolutionTree.Text

variable {sep : Char} {before after cs : List Char}

/-! ### Pieces -/

theorem pieces_ne_nil (sep : Char) (s : String) : pieces sep s ≠ [] := by
  simp [pieces, List.splitOn_ne_nil]

theorem pieces_of_notMem {s : String} (h : sep ∉ s.toList) : pieces sep s = [s] := by
  rw [pieces, List.splitOn_eq_singleton h, List.map_singleton, String.ofList_toList]

/-- A separator parts the pieces before it from those after it. -/
theorem pieces_append (s t : String) :
    pieces sep (s ++ String.singleton sep ++ t) = pieces sep s ++ pieces sep t := by
  have hcs : (s ++ String.singleton sep ++ t).toList = s.toList ++ sep :: t.toList := by simp
  rw [pieces, hcs, List.splitOn_append_cons_self, List.map_append, pieces, pieces]

theorem pieces_append_singleton (s : String) :
    pieces sep (s ++ String.singleton sep) = pieces sep s ++ [""] := by
  have hempty : pieces sep "" = [""] := pieces_of_notMem (by simp)
  have happend : pieces sep (s ++ String.singleton sep ++ "") = pieces sep s ++ pieces sep "" :=
    pieces_append s ""
  rwa [String.append_empty, hempty] at happend

/-- Names without a separator are read back from the text that has one between each
two of them. -/
theorem pieces_intercalate {names : List String} (h : ∀ name ∈ names, sep ∉ name.toList)
    (hne : names ≠ []) :
    pieces sep (String.intercalate (String.singleton sep) names) = names := by
  have hcs : ∀ cs ∈ names.map String.toList, sep ∉ cs := by
    intro cs hm
    obtain ⟨name, hname, rfl⟩ := List.mem_map.mp hm
    exact h name hname
  have hsplit := List.splitOn_intercalate sep hcs (by simpa using hne)
  rw [pieces, String.toList_intercalate, String.toList_singleton, hsplit, List.map_map]
  simp [Function.comp_def]

theorem notMem_of_mem_splitOn {piece : List Char} (h : piece ∈ cs.splitOn sep) : sep ∉ piece := by
  induction cs generalizing piece with
  | nil =>
    simp at h
    simp [h]
  | cons c cs ih =>
    rw [List.splitOn_cons_eq_if_modifyHead] at h
    by_cases hc : c = sep
    · simp only [hc, beq_self_eq_true, ↓reduceIte, List.mem_cons] at h
      rcases h with rfl | h
      · simp
      · exact ih h
    · obtain ⟨first, rest, hcons⟩ := List.exists_cons_of_ne_nil (List.splitOn_ne_nil sep cs)
      simp only [beq_iff_eq, hc, ↓reduceIte, hcons, List.modifyHead_cons, List.mem_cons] at h
      rw [hcons] at ih
      rcases h with rfl | h
      · simp only [List.mem_cons, not_or]
        exact ⟨Ne.symm hc, ih (by simp)⟩
      · exact ih (List.mem_cons_of_mem _ h)

theorem notMem_of_mem_pieces {s piece : String} (h : piece ∈ pieces sep s) :
    sep ∉ piece.toList := by
  obtain ⟨cs, hcs, rfl⟩ := List.mem_map.mp h
  simpa using notMem_of_mem_splitOn hcs

/-! ### Putting one character for another -/

theorem replace_append (old new : Char) (s t : String) :
    replace old new (s ++ t) = replace old new s ++ replace old new t := by
  simp [replace]

theorem replace_of_notMem {new : Char} {s : String} (h : sep ∉ s.toList) :
    replace sep new s = s := by
  have hsame : ∀ c ∈ s.toList, (if c = sep then new else c) = c := by
    intro c hc
    rw [if_neg]
    rintro rfl
    exact h hc
  rw [replace, List.map_congr_left hsame, List.map_id', String.ofList_toList]

theorem replace_intercalate {names : List String} (new : Char)
    (h : ∀ name ∈ names, sep ∉ name.toList) :
    replace sep new (String.intercalate (String.singleton sep) names) =
      String.intercalate (String.singleton new) names := by
  induction names with
  | nil => simp [replace]
  | cons name names ih =>
    have ⟨hname, hnames⟩ := List.forall_mem_cons.mp h
    by_cases hne : names = []
    · subst hne
      simp [replace_of_notMem hname]
    · rw [String.intercalate_cons_of_ne_nil hne, String.intercalate_cons_of_ne_nil hne,
        replace_append, replace_append, replace_of_notMem hname, ih hnames]
      simp [replace]

/-- Cutting where a character was replaced is cutting at both. -/
theorem splitOn_map_replace (old new : Char) (cs : List Char) :
    (cs.map fun c => if c = old then new else c).splitOn new =
      (cs.splitOn new).flatMap (List.splitOn old) := by
  induction cs with
  | nil => simp
  | cons c cs ih =>
    obtain ⟨first, rest, hsplit⟩ := List.exists_cons_of_ne_nil (List.splitOn_ne_nil new cs)
    rw [hsplit, List.flatMap_cons] at ih
    by_cases hnew : c = new
    · subst hnew
      simp [List.splitOn_cons_eq_if_modifyHead, hsplit, ih]
    · by_cases hold : c = old
      · subst hold
        simp [List.splitOn_cons_eq_if_modifyHead, hsplit, ih, hnew]
      · obtain ⟨part, parts, hparts⟩ := List.exists_cons_of_ne_nil (List.splitOn_ne_nil old first)
        simp [List.splitOn_cons_eq_if_modifyHead, hsplit, ih, hnew, hold, hparts]

/-- What is replaced by the character that a text is cut at is a place to cut it at,
too. -/
theorem pieces_replace (old new : Char) (s : String) :
    pieces new (replace old new s) = (pieces new s).flatMap (pieces old) := by
  simp [pieces, replace, splitOn_map_replace, List.flatMap_map, List.map_flatMap]

/-! ### The last occurrence -/

/-- A list can be parted at the last occurrence of an element. -/
theorem exists_last_split (h : sep ∈ cs) :
    ∃ before after, cs = before ++ sep :: after ∧ sep ∉ after := by
  obtain ⟨front, rest, heq, hnot⟩ :=
    List.eq_append_cons_of_mem (List.mem_reverse.mpr h)
  refine ⟨rest.reverse, front.reverse, ?_, by simpa using hnot⟩
  rw [← List.reverse_reverse cs, heq]
  simp

theorem ne_of_mem_reverse (h : sep ∉ cs) : ∀ c ∈ cs.reverse, (c != sep) = true := by
  intro c hc
  rw [bne_iff_ne]
  rintro rfl
  exact h (List.mem_reverse.mp hc)

theorem beforeLast?_append (h : sep ∉ after) :
    beforeLast? sep (before ++ sep :: after) = some before := by
  have hdrop : (before ++ sep :: after).reverse.dropWhile (· != sep) = sep :: before.reverse := by
    rw [List.reverse_append, List.reverse_cons, List.append_assoc,
      List.dropWhile_append_of_pos (ne_of_mem_reverse h), List.singleton_append]
    exact List.dropWhile_cons_of_neg (by simp)
  simp only [beforeLast?, hdrop, List.reverse_reverse]

theorem beforeLast?_of_notMem (h : sep ∉ cs) : beforeLast? sep cs = none := by
  have hdrop : cs.reverse.dropWhile (· != sep) = [] := by
    rw [← List.append_nil cs.reverse, List.dropWhile_append_of_pos (ne_of_mem_reverse h),
      List.dropWhile_nil]
  rw [beforeLast?, hdrop]

theorem afterLast_append (h : sep ∉ after) : afterLast sep (before ++ sep :: after) = after := by
  rw [afterLast, List.reverse_append, List.reverse_cons, List.append_assoc,
    List.takeWhile_append_of_pos (ne_of_mem_reverse h)]
  simp

theorem afterLast_of_notMem (h : sep ∉ cs) : afterLast sep cs = cs := by
  rw [afterLast, ← List.append_nil cs.reverse, List.takeWhile_append_of_pos (ne_of_mem_reverse h),
    List.takeWhile_nil, List.append_nil, List.reverse_reverse]

end SolutionTree.Text
