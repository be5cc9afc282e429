import SolutionTree.Proofs.Path.Spelling

/-!
Paths below one directory are told apart from any base.

What goes down from a directory stands behind the same segments, however the
directory is spelled (`segments_under_eq`), also when it is written with slashes
(`pieces_slashed_under`). The texts that lead there from a base are cut into
relative segments (`pieces_relative`), and these tell which way down was taken
(`eq_of_relativeSegments_append_eq`). Neither the directory nor the base is
normalized: both may have `..`, dots and empty segments.
-/

namespace SolutionTree.Path

/-- The segments that a path has in front of those of what is below it. -/
def frontSegments (p : Path) : List String :=
  if p.text = "" then []
  else if p.text.toList.getLast? = some '/' then p.segments.dropLast
  else p.segments

variable {p : Path} {names : List String} {name : String}

theorem segments_child_eq (h : isPlain name = true) :
    (p.child name).segments = p.frontSegments ++ [name] := by
  have hrel := isAbsolute_of_slash_notMem (slash_notMem_of_isPlain h)
  have hpieces := Text.pieces_of_notMem (slash_notMem_of_isPlain h)
  simp only [child, join, hrel, Bool.false_eq_true, ↓reduceIte, frontSegments]
  split
  · exact hpieces
  · split
    next hslash =>
      obtain ⟨front, rfl, hsegments⟩ := exists_front_of_getLast?_slash hslash
      rw [hsegments, List.dropLast_concat, segments, text_mk, text_mk, ← hpieces]
      exact Text.pieces_append front name
    · rw [segments, text_mk, ← hpieces]
      exact Text.pieces_append p.text name

/-- What ends with a name has all its segments in front of those below it. -/
theorem frontSegments_of_getLast? (h : p.segments.getLast? = some name) (hne : name ≠ "") :
    p.frontSegments = p.segments := by
  have htext : p.text ≠ "" := by
    intro hempty
    rw [segments, hempty, Text.pieces_of_notMem (by simp)] at h
    exact hne (Option.some.inj h).symm
  have hslash : p.text.toList.getLast? ≠ some '/' := by
    intro hslash
    obtain ⟨front, -, hsegments⟩ := exists_front_of_getLast?_slash hslash
    rw [hsegments, List.getLast?_concat] at h
    exact hne (Option.some.inj h).symm
  rw [frontSegments, if_neg htext, if_neg hslash]

/-- What is below a path has the path's segments in front, but for the empty one
that a slash at its end leaves. -/
theorem segments_under_eq (hne : names ≠ []) (h : ∀ name ∈ names, isPlain name = true) :
    (p.under names).segments = p.frontSegments ++ names := by
  induction names generalizing p with
  | nil => contradiction
  | cons name names ih =>
    obtain ⟨hname, hnames⟩ := List.forall_mem_cons.mp h
    have hchild := segments_child_eq (p := p) hname
    by_cases hrest : names = []
    · subst hrest
      exact hchild
    · have hlast : (p.child name).segments.getLast? = some name := by simp [hchild]
      rw [under_cons, ih hrest hnames, frontSegments_of_getLast? hlast (ne_empty_of_isPlain hname),
        hchild]
      simp

/-! ### Segments of paths with slashes -/

theorem exists_text_append (h : p.segments.getLast? = some name) :
    ∃ before, p.text = before ++ name := by
  obtain ⟨front, hfront⟩ := List.getLast?_eq_some_iff.mp h
  have htext := Text.intercalate_pieces '/' p.text
  rw [← segments, hfront] at htext
  by_cases hne : front = []
  · subst hne
    exact ⟨"", by simpa using htext.symm⟩
  · rw [String.intercalate_append_of_ne_nil hne (by simp), String.intercalate_singleton] at htext
    exact ⟨_, htext.symm⟩

/-- A path that ends with a name without a backslash, written with slashes, is cut
where the path was and at its backslashes. -/
theorem pieces_slashed (h : p.segments.getLast? = some name) (hne : name ≠ "")
    (hback : '\\' ∉ name.toList) :
    Text.pieces '/' p.slashed = p.segments.flatMap (Text.pieces '\\') := by
  have hslash : '/' ∉ name.toList := Text.notMem_of_mem_pieces (List.mem_of_getLast? h)
  have hsolid := isSolid_of_notMem hne hslash hback
  obtain ⟨before, hbefore⟩ := exists_text_append h
  have hslashed : p.slashed = Text.replace '\\' '/' p.text := by
    have hpath : p = ⟨before ++ name⟩ := eq_of_text_eq hbefore
    rw [hpath, slashed_append before hsolid, slashed_of_notMem hne hslash hback, text_mk,
      Text.replace_append, Text.replace_of_notMem hback]
  rw [hslashed, Text.pieces_replace, segments]

/-- Names that a path goes down by are its last pieces. -/
theorem pieces_slashed_under (hne : names ≠ []) (h : ∀ name ∈ names, isPlain name = true)
    (hback : ∀ name ∈ names, '\\' ∉ name.toList) :
    Text.pieces '/' (p.under names).slashed =
      p.frontSegments.flatMap (Text.pieces '\\') ++ names := by
  have hsegments := segments_under_eq (p := p) hne h
  have hlast : (p.under names).segments.getLast? = some (names.getLast hne) := by
    rw [hsegments, List.getLast?_append_of_ne_nil _ hne, List.getLast?_eq_some_getLast hne]
  have hmem := List.getLast_mem hne
  have hnames : names.flatMap (Text.pieces '\\') = names := by
    rw [List.flatMap_def, List.map_congr_left fun name hm => Text.pieces_of_notMem (hback name hm),
      ← List.flatMap_def]
    exact List.flatMap_singleton' names
  rw [pieces_slashed hlast (ne_empty_of_isPlain (h _ hmem)) (hback _ hmem), hsegments,
    List.flatMap_append, hnames]

/-! ### Relative texts -/

variable {xs ys base : List String}

/-- The last segment is never shared, and so the way to something ends in its name.
-/
theorem getLast?_relativeSegments (base : List String) (hne : xs ≠ []) :
    (relativeSegments xs base).getLast? = xs.getLast? := by
  have hlt := sharedCount_lt base hne
  have hdrop : xs.drop (sharedCount xs base) ≠ [] := by
    rw [ne_eq, List.drop_eq_nil_iff]
    omega
  rw [relativeSegments, List.getLast?_append_of_ne_nil _ hdrop, List.getLast?_drop,
    if_neg (by omega)]

theorem relativeSegments_cons_of_ne {x b : String} (h : x ≠ b) (xs base : List String) :
    relativeSegments (x :: xs) (b :: base) = List.replicate (base.length + 1) ".." ++ x :: xs := by
  have hshared : sharedCount (x :: xs) (b :: base) = 0 := by
    cases xs with
    | nil => simp [sharedCount]
    | cons next xs => simp [sharedCount, h]
  simp [relativeSegments, hshared]

/-- Segments that never go back are told apart by how many others they go back from,
and by what is left of them. -/
theorem eq_of_relativeSegments_eq (hx : ".." ∉ xs) (hy : ".." ∉ ys)
    (h : relativeSegments xs base = relativeSegments ys base) : xs = ys := by
  have hcount : ∀ zs, ".." ∉ zs →
      (relativeSegments zs base).count ".." = base.length - sharedCount zs base := by
    intro zs hz
    have hdrop : (zs.drop (sharedCount zs base)).count ".." = 0 :=
      List.count_eq_zero.mpr fun hmem => hz (List.mem_of_mem_drop hmem)
    rw [relativeSegments, List.count_append, List.count_replicate_self, hdrop, Nat.add_zero]
  have hshared : sharedCount xs base = sharedCount ys base := by
    have hsame := congrArg (List.count "..") h
    rw [hcount xs hx, hcount ys hy] at hsame
    have hxle := sharedCount_le xs base
    have hyle := sharedCount_le ys base
    omega
  rw [relativeSegments, relativeSegments, hshared, List.append_cancel_left_eq] at h
  calc xs = xs.take (sharedCount ys base) ++ xs.drop (sharedCount ys base) :=
        (List.take_append_drop _ _).symm
    _ = ys.take (sharedCount ys base) ++ ys.drop (sharedCount ys base) := by
        rw [h, ← hshared, take_sharedCount, hshared, take_sharedCount]
    _ = ys := List.take_append_drop _ _

/-- **What goes down from one front is told apart from any base**, whatever segments
the front and the base are made of. -/
theorem eq_of_relativeSegments_append_eq (front : List String) (hx : ".." ∉ xs) (hy : ".." ∉ ys)
    (hxne : xs ≠ []) (hyne : ys ≠ [])
    (h : relativeSegments (front ++ xs) base = relativeSegments (front ++ ys) base) : xs = ys := by
  induction front generalizing base with
  | nil => exact eq_of_relativeSegments_eq hx hy h
  | cons first front ih =>
    cases base with
    | nil =>
      rw [relativeSegments_nil, relativeSegments_nil] at h
      exact List.append_cancel_left h
    | cons b base =>
      by_cases hfirst : first = b
      · subst hfirst
        have hshared : ∀ zs, zs ≠ [] → relativeSegments (first :: front ++ zs) (first :: base) =
            relativeSegments (front ++ zs) base := fun zs hne =>
          relativeSegments_append [first] (List.append_ne_nil_of_right_ne_nil front hne)
        rw [hshared xs hxne, hshared ys hyne] at h
        exact ih h
      · rw [List.cons_append, List.cons_append, relativeSegments_cons_of_ne hfirst,
          relativeSegments_cons_of_ne hfirst, List.append_cancel_left_eq, List.cons.injEq] at h
        exact List.append_cancel_left h.2

end SolutionTree.Path
