import SolutionTree.Proofs.Path.Spelling

/-!
Paths whose backslashes are read as slashes.

Writing a path with slashes and without slashes at its end does not change where it
leads to (`place_slashed`). A relative text has no backslash left in it, and it
starts at the root exactly when the described path goes on behind the base with an
empty segment (`isAbsolute_relative_iff`); otherwise, joined to the base, it leads
to the described place (`place_withSlashes_join_relative`). Nothing is asked of the
described path: it may have `.`, `..` and empty segments, and slashes and
backslashes at its end.
-/

namespace SolutionTree.Path

def withSlashes (p : Path) : Path :=
  ⟨Text.replace '\\' '/' p.text⟩

variable {p source base : Path} {rel : String}

/-! ### Slashes at the end -/

/-- A text without the slashes at its end leads to the same place. -/
theorem place_rdropWhile (cs : List Char) :
    place ⟨String.ofList (cs.rdropWhile (· == '/'))⟩ = place ⟨String.ofList cs⟩ := by
  induction cs using List.reverseRecOn with
  | nil => rfl
  | append_singleton cs c ih =>
    by_cases hc : c = '/'
    · subst hc
      rw [List.rdropWhile_concat_pos _ _ _ (by simp), ih, String.ofList_append]
      exact (place_append_slash _).symm
    · rw [List.rdropWhile_concat_neg _ _ _ (by simpa using hc)]

/-- Dropping the slashes at the end of a path does not change its place. -/
theorem place_slashed (p : Path) : place ⟨p.slashed⟩ = p.withSlashes.place := by
  have htrimmed := place_rdropWhile (Text.replace '\\' '/' p.text).toList
  rw [String.ofList_toList] at htrimmed
  rw [withSlashes, ← htrimmed, slashed, List.rdropWhile]
  split
  next h =>
    rw [Bool.and_eq_true, List.isEmpty_iff] at h
    rw [h.1]
    decide
  next => rfl

/-! ### Backslashes -/

theorem notMem_replace {old new : Char} (h : old ≠ new) (s : String) :
    old ∉ (Text.replace old new s).toList := by
  simp only [Text.replace, String.toList_ofList, List.mem_map, not_exists, not_and]
  intro c _ heq
  split at heq
  · exact h heq.symm
  · contradiction

theorem notMem_slashed (p : Path) : '\\' ∉ p.slashed.toList := by
  rw [slashed]
  split
  · decide
  · rw [String.toList_ofList, ← List.rdropWhile]
    intro hmem
    exact notMem_replace (by decide) p.text ((List.rdropWhile_prefix _ _).subset hmem)

theorem slashed_withSlashes (p : Path) : p.withSlashes.slashed = p.slashed := by
  rw [slashed, slashed, withSlashes, text_mk,
    Text.replace_of_notMem (notMem_replace (by decide) p.text)]

theorem notMem_of_mem_pieces_of_notMem {c : Char} {s piece : String} (hc : c ≠ '/')
    (h : c ∉ s.toList) (hpiece : piece ∈ Text.pieces '/' s) : c ∉ piece.toList := by
  intro hmem
  have hs := Text.intercalate_pieces '/' s
  rw [← hs] at h
  exact h ((mem_dirText_iff hc).mpr ⟨piece, hpiece, hmem⟩)

/-- A relative text is written without backslashes. -/
theorem notMem_relative (source base : Path) : '\\' ∉ (source.relative base).toList := by
  rw [relative, relativeText]
  intro hmem
  obtain ⟨segment, hsegment, hmem⟩ := (mem_dirText_iff (by decide)).mp hmem
  rcases mem_of_mem_relativeSegments hsegment with rfl | hsegment
  · exact absurd hmem (by decide)
  · exact notMem_of_mem_pieces_of_notMem (by decide) (notMem_slashed source) hsegment hmem

/-! ### Joined texts -/

theorem replace_slash : Text.replace '\\' '/' "/" = "/" := by decide

/-- A text behind a slash is followed from the place of what stands before it,
backslashes read as slashes in both. -/
theorem place_withSlashes_append (front rel : String) :
    (⟨front ++ "/" ++ rel⟩ : Path).withSlashes.place =
      placeFrom (⟨front⟩ : Path).withSlashes.place
        (Text.pieces '/' (Text.replace '\\' '/' rel)) := by
  have hpieces : Text.pieces '/' (Text.replace '\\' '/' (front ++ "/" ++ rel)) =
      Text.pieces '/' (Text.replace '\\' '/' front) ++
        Text.pieces '/' (Text.replace '\\' '/' rel) := by
    rw [Text.replace_append, Text.replace_append, replace_slash]
    exact Text.pieces_append _ _
  simp only [place, segments, withSlashes, hpieces, placeFrom_append]

theorem place_withSlashes_append_slash (front : String) :
    (⟨front ++ "/"⟩ : Path).withSlashes.place = (⟨front⟩ : Path).withSlashes.place := by
  have hreplace : Text.replace '\\' '/' (front ++ "/") = Text.replace '\\' '/' front ++ "/" := by
    rw [Text.replace_append, replace_slash]
  rw [withSlashes, text_mk, hreplace, place_append_slash, withSlashes, text_mk]

/-- What is joined to a path is read behind it, its backslashes and those of the
path as slashes. -/
theorem place_withSlashes_join (p : Path) (h : isAbsolute ⟨rel⟩ = false) :
    (p.join ⟨rel⟩).withSlashes.place =
      placeFrom p.withSlashes.place (Text.pieces '/' (Text.replace '\\' '/' rel)) := by
  simp only [join, h, Bool.false_eq_true, ↓reduceIte]
  split
  next hempty =>
    obtain rfl : p = ⟨""⟩ := eq_of_text_eq hempty
    rfl
  next =>
    split
    next hlast =>
      obtain ⟨front, rfl, -⟩ := exists_front_of_getLast?_slash hlast
      rw [place_withSlashes_append_slash]
      exact place_withSlashes_append front rel
    next => exact place_withSlashes_append p.text rel

/-! ### Relative texts -/

theorem append_two_slashes (front tail : String) :
    front ++ "//" ++ tail = front ++ String.singleton '/' ++ ("/" ++ tail) := by
  apply String.toList_inj.mp
  simp

/-- What goes on behind the base with an empty segment is written from the root. -/
theorem relative_eq_of_slashed_eq {tail : String}
    (h : source.slashed = base.slashed ++ "//" ++ tail) : source.relative base = "/" ++ tail := by
  have hsource : Text.pieces '/' source.slashed =
      Text.pieces '/' base.slashed ++ Text.pieces '/' ("/" ++ tail) := by
    rw [h, append_two_slashes, Text.pieces_append]
  have hpieces : Text.pieces '/' (source.relative base) = Text.pieces '/' ("/" ++ tail) := by
    have hshared : relativeSegments (Text.pieces '/' source.slashed)
        (Text.pieces '/' base.slashed ++ []) = relativeSegments (Text.pieces '/' ("/" ++ tail)) [] := by
      rw [hsource]
      exact relativeSegments_append _ (Text.pieces_ne_nil '/' _)
    rwa [List.append_nil, relativeSegments_nil, ← pieces_relative] at hshared
  rw [← Text.intercalate_pieces '/' (source.relative base), hpieces, Text.intercalate_pieces]

/-- What is described without a step back goes on behind the base. -/
theorem eq_append_of_relativeSegments_eq {source base rest : List String} {first : String}
    (h : relativeSegments source base = first :: rest) (hfirst : first ≠ "..") :
    source = base ++ first :: rest := by
  have hshared : base.length - sharedCount source base = 0 := by
    by_contra hne
    obtain ⟨n, hn⟩ := Nat.exists_eq_succ_of_ne_zero hne
    rw [relativeSegments, hn, List.replicate_succ, List.cons_append, List.cons.injEq] at h
    exact hfirst h.1.symm
  have htake := take_sharedCount source base
  rw [relativeSegments, hshared, List.replicate_zero, List.nil_append] at h
  rw [List.take_of_length_le (l := base) (Nat.sub_eq_zero_iff_le.mp hshared)] at htake
  calc source = source.take (sharedCount source base) ++ source.drop (sharedCount source base) :=
        (List.take_append_drop _ _).symm
    _ = base ++ first :: rest := by rw [htake, h]

/-- The way to a path starts at the root only when the path goes on behind the base
with an empty segment. This is the one case in which a relative text is none. -/
theorem exists_tail_of_isAbsolute_relative (h : isAbsolute ⟨source.relative base⟩ = true) :
    ∃ tail, source.slashed = base.slashed ++ "//" ++ tail := by
  obtain ⟨rest, hpieces, hrest⟩ := exists_segments_of_isAbsolute _ h
  rw [pieces_relative] at hpieces
  have hsource := eq_append_of_relativeSegments_eq hpieces (by decide)
  refine ⟨dirText rest, ?_⟩
  have hjoin := Text.intercalate_pieces '/' source.slashed
  rw [hsource, String.intercalate_append_of_ne_nil (Text.pieces_ne_nil '/' _) (by simp),
    Text.intercalate_pieces, String.intercalate_cons_of_ne_nil hrest] at hjoin
  rw [append_two_slashes, ← hjoin, String.empty_append]
  rfl

/-- **A relative text starts at the root** exactly when the described path goes on
behind the base with an empty segment. -/
theorem isAbsolute_relative_iff (source base : Path) :
    isAbsolute ⟨source.relative base⟩ = true ↔
      ∃ tail, source.slashed = base.slashed ++ "//" ++ tail := by
  refine ⟨exists_tail_of_isAbsolute_relative, ?_⟩
  rintro ⟨tail, h⟩
  simp [isAbsolute, relative_eq_of_slashed_eq h]

/-- An empty segment in front is undone by a step back that stays at the root. -/
theorem Unwinds.cons_empty {base : List String} (h : Unwinds base) : Unwinds ("" :: base) := by
  intro n hn
  have hempty : ∀ segments, placeFrom [] ("" :: segments) = placeFrom [] segments := by simp
  cases n with
  | zero =>
    have hzero := h 0 (Nat.zero_le _)
    rw [Nat.sub_zero, List.take_zero, placeFrom_nil] at hzero
    rw [hempty, Nat.sub_zero, List.length_cons, List.replicate_succ', placeFrom_append, hzero]
    rfl
  | succ n =>
    rw [hempty, List.length_cons, Nat.add_sub_add_right, List.take_succ_cons, hempty]
    exact h n (Nat.le_of_succ_le_succ hn)

/-- **Joined to the base, a relative text leads to the described place**, unless it
starts at the root. -/
theorem place_withSlashes_join_relative {names : List String}
    (hbase : base.withSlashes.Spells names)
    (hplain : ∀ name ∈ names, isPlain name = true)
    (hrel : isAbsolute ⟨source.relative base⟩ = false) :
    (base.join ⟨source.relative base⟩).withSlashes.place = source.withSlashes.place := by
  have hnames : ∀ name ∈ names, IsSegment name :=
    fun name hm => isSegment_of_isPlain (hplain name hm)
  have hslashed : base.slashed = (ofPlace names).text := by
    rw [← slashed_withSlashes]
    exact hbase.slashed_eq hnames (notMem_replace (by decide) base.text)
  have hpieces : Text.pieces '/' base.slashed = "" :: tailSegments names := by
    rw [hslashed]
    exact segments_ofPlace hnames
  have hplace : base.withSlashes.place = placeFrom [] (Text.pieces '/' base.slashed) := by
    rw [hslashed, hbase.place_eq hnames]
    exact (place_ofPlace hnames).symm
  have hunwinds : Unwinds (Text.pieces '/' base.slashed) := by
    rw [hpieces]
    exact (unwinds_tailSegments hplain).cons_empty
  have hsource := place_slashed source
  rw [place, segments, text_mk] at hsource
  rw [place_withSlashes_join base hrel, Text.replace_of_notMem (notMem_relative source base),
    pieces_relative, hplace, placeFrom_relativeSegments _ hunwinds, hsource]

end SolutionTree.Path
