import SolutionTree.Path.Lexical
import SolutionTree.Path.Relative
import SolutionTree.Proofs.Path.Child

/-!
Where relative segments lead.

What a described path and its base share at the start does not show in the segments
between them (`relativeSegments_append`), which a relative text is cut into
(`pieces_relative`). They lead from the place of the base to that of the described
path when each `..` undoes one segment of the base (`placeFrom_relativeSegments`),
as it does for plain names and for the root. Written as a text with any separator
but a dot, they are read back and lead the same way, and never from the root
(`placeFrom_relativeText`).
-/

namespace SolutionTree.Path

variable {source base names : List String}

/-! ### What is shared -/

/-- What is counted as shared is the same on both sides. -/
theorem take_sharedCount (source base : List String) :
    source.take (sharedCount source base) = base.take (sharedCount source base) := by
  fun_induction sharedCount source base with
  | case1 next source b base ih => simpa using ih
  | case2 => simp
  | case3 => simp

/-- Segments in front that both have are shared, as long as the source goes on
behind them. -/
theorem sharedCount_append (shared : List String) (hne : source ≠ []) :
    sharedCount (shared ++ source) (shared ++ base) =
      shared.length + sharedCount source base := by
  induction shared with
  | nil => simp
  | cons segment shared ih =>
    obtain ⟨next, rest, hcons⟩ :=
      List.exists_cons_of_ne_nil (List.append_ne_nil_of_right_ne_nil shared hne)
    rw [List.cons_append, List.cons_append, hcons, sharedCount, if_pos rfl, ← hcons, ih,
      List.length_cons]
    omega

/-- **A start that both have does not show**, unless the source ends with it: the
last segment of the source always stays. -/
theorem relativeSegments_append (shared : List String) (hne : source ≠ []) :
    relativeSegments (shared ++ source) (shared ++ base) = relativeSegments source base := by
  have hdrop : (shared ++ source).drop (shared.length + sharedCount source base) =
      source.drop (sharedCount source base) := by
    rw [List.drop_append, List.drop_of_length_le (by omega), List.nil_append]
    congr 1
    omega
  have hlength : (shared ++ base).length - (shared.length + sharedCount source base) =
      base.length - sharedCount source base := by
    rw [List.length_append]
    omega
  simp only [relativeSegments, sharedCount_append shared hne, hdrop, hlength]

/-- One segment is never shared. -/
theorem relativeSegments_singleton (segment : String) (base : List String) :
    relativeSegments [segment] base = List.replicate base.length ".." ++ [segment] := by
  simp [relativeSegments, sharedCount]

theorem relativeSegments_nil (source : List String) : relativeSegments source [] = source := by
  have hshared : sharedCount source [] = 0 := Nat.le_zero.mp (sharedCount_le source [])
  simp [relativeSegments, hshared]

/-- The way to something has at least one segment, since the last one of the source
is not shared. -/
theorem relativeSegments_ne_nil (base : List String) (hne : source ≠ []) :
    relativeSegments source base ≠ [] := by
  have hlt := sharedCount_lt base hne
  simp only [relativeSegments, ne_eq, List.append_eq_nil_iff, List.drop_eq_nil_iff]
  omega

/-- A way is made of steps up and of segments of its source. -/
theorem mem_of_mem_relativeSegments {segment : String}
    (h : segment ∈ relativeSegments source base) : segment = ".." ∨ segment ∈ source := by
  rcases List.mem_append.mp h with h | h
  · exact .inl (List.eq_of_mem_replicate h)
  · exact .inr (List.mem_of_mem_drop h)

/-- The segments of a relative text, as it is written. -/
theorem pieces_relative (source base : Path) :
    Text.pieces '/' (source.relative base) =
      relativeSegments (Text.pieces '/' source.slashed) (Text.pieces '/' base.slashed) := by
  rw [relative, relativeText]
  refine Text.pieces_intercalate ?_ (relativeSegments_ne_nil _ (Text.pieces_ne_nil '/' _))
  intro segment hsegment
  rcases mem_of_mem_relativeSegments hsegment with rfl | hmem
  · decide
  · exact Text.notMem_of_mem_pieces hmem

/-! ### Walking back -/

@[simp] theorem stepPlace_up (place : List String) : stepPlace place ".." = place.dropLast := by
  simp [stepPlace, isIdle]

@[simp] theorem stepPlace_empty (place : List String) : stepPlace place "" = place := by
  simp [stepPlace, isIdle]

/-- A segment that goes down, whatever characters are in it. -/
def GoesDown (segment : String) : Prop :=
  segment ≠ "" ∧ segment ≠ "." ∧ segment ≠ ".."

theorem goesDown_of_isPlain {name : String} (h : isPlain name = true) : GoesDown name := by
  obtain ⟨hempty, hdot, hdots, -⟩ := isPlain_iff.mp h
  exact ⟨hempty, hdot, hdots⟩

theorem stepPlace_of_goesDown {name : String} (place : List String) (h : GoesDown name) :
    stepPlace place name = place ++ [name] := by
  obtain ⟨hempty, hdot, hdots⟩ := h
  simp [stepPlace, isIdle, hempty, hdot, hdots]

/-- Segments that go down add themselves to the place. -/
theorem placeFrom_of_goesDown (place : List String) (h : ∀ name ∈ names, GoesDown name) :
    placeFrom place names = place ++ names := by
  induction names generalizing place with
  | nil => simp
  | cons name names ih =>
    have ⟨hname, hnames⟩ := List.forall_mem_cons.mp h
    rw [placeFrom_cons, stepPlace_of_goesDown place hname, ih (place ++ [name]) hnames]
    simp

theorem placeFrom_of_isPlain (place : List String) (h : ∀ name ∈ names, isPlain name = true) :
    placeFrom place names = place ++ names :=
  placeFrom_of_goesDown place fun name hm => goesDown_of_isPlain (h name hm)

/-- Steps up take names from the end of a place, and stop at the root. -/
theorem placeFrom_replicate_up (place : List String) (n : Nat) :
    placeFrom place (List.replicate n "..") = place.take (place.length - n) := by
  induction n generalizing place with
  | zero => simp
  | succ n ih =>
    rw [List.replicate_succ, placeFrom_cons, stepPlace_up, ih, List.dropLast_eq_take,
      List.take_take, List.length_take]
    congr 1
    omega

/-- Whether each `..` behind segments undoes one of them, from the last to the
first. -/
def Unwinds (base : List String) : Prop :=
  ∀ n ≤ base.length,
    placeFrom (placeFrom [] base) (List.replicate (base.length - n) "..") =
      placeFrom [] (base.take n)

theorem unwinds_of_goesDown (h : ∀ name ∈ names, GoesDown name) : Unwinds names := by
  intro n hn
  have htake : ∀ name ∈ names.take n, GoesDown name :=
    fun name hm => h name (List.mem_of_mem_take hm)
  rw [placeFrom_of_goesDown [] h, placeFrom_of_goesDown [] htake, placeFrom_replicate_up]
  simp only [List.nil_append]
  congr 1
  omega

theorem unwinds_of_isPlain (h : ∀ name ∈ names, isPlain name = true) : Unwinds names :=
  unwinds_of_goesDown fun name hm => goesDown_of_isPlain (h name hm)

/-- The root stays where it is, whatever goes back from it. -/
theorem unwinds_root : Unwinds [""] := by
  intro n hn
  have hplace : ∀ m, placeFrom [] ([""].take m) = [] := by
    intro m
    cases m with
    | zero => rfl
    | succ m => simp [stepPlace, isIdle]
  rw [hplace n, placeFrom_replicate_up]
  simp [stepPlace, isIdle]

/-- **Relative segments lead back** to the described place from a base that unwinds.
-/
theorem placeFrom_relativeSegments (source : List String) (h : Unwinds base) :
    placeFrom (placeFrom [] base) (relativeSegments source base) = placeFrom [] source := by
  calc placeFrom (placeFrom [] base) (relativeSegments source base)
      = placeFrom (placeFrom [] (base.take (sharedCount source base)))
          (source.drop (sharedCount source base)) := by
        rw [relativeSegments, placeFrom_append, h _ (sharedCount_le source base)]
    _ = placeFrom [] source := by
        rw [← take_sharedCount, ← placeFrom_append, List.take_append_drop]

/-! ### Relative texts -/

/-- A text that starts at the root, with a separator before each of its segments. -/
structure Rooted (sep : Char) (text : String) (segments : List String) : Prop where
  segments_ne_nil : segments ≠ []
  text_eq : text = String.singleton sep ++ String.intercalate (String.singleton sep) segments
  sep_notMem : ∀ segment ∈ segments, sep ∉ segment.toList

section Separated

variable {sep : Char} {text : String} {segments : List String}

theorem pieces_singleton_append (rest : String) :
    Text.pieces sep (String.singleton sep ++ rest) = "" :: Text.pieces sep rest := by
  have hempty : Text.pieces sep "" = [""] := Text.pieces_of_notMem (by simp)
  rw [← String.empty_append (s := String.singleton sep), Text.pieces_append, hempty]
  rfl

/-- A text that starts at the root has an empty piece in front, and then its
segments. -/
theorem Rooted.pieces_eq (h : Rooted sep text segments) :
    Text.pieces sep text = "" :: segments := by
  rw [h.text_eq, pieces_singleton_append, Text.pieces_intercalate h.sep_notMem h.segments_ne_nil]

/-- The segments of a relative text are those that lead from the one to the other.
-/
theorem pieces_relativeText (hsep : sep ≠ '.') {sourceText baseText : String}
    (hsource : Rooted sep sourceText source) (hbase : Rooted sep baseText base) :
    Text.pieces sep (relativeText sourceText baseText sep) = relativeSegments source base := by
  have hshared : relativeSegments ("" :: source) ("" :: base) = relativeSegments source base :=
    relativeSegments_append [""] hsource.segments_ne_nil
  rw [relativeText, hsource.pieces_eq, hbase.pieces_eq, hshared]
  refine Text.pieces_intercalate ?_ (relativeSegments_ne_nil base hsource.segments_ne_nil)
  intro segment hsegment
  rcases mem_of_mem_relativeSegments hsegment with rfl | hmem
  · simpa using hsep
  · exact hsource.sep_notMem segment hmem

/-- **A relative text leads back.** With any separator but a dot, the text that
describes one place relative to another leads from the latter to the former, segment
by segment, and does not start at the root. The base goes down only; the described
text may have `.` and `..` in it. -/
theorem placeFrom_relativeText (hsep : sep ≠ '.') {sourceText baseText : String}
    (hsource : Rooted sep sourceText source) (hbase : Rooted sep baseText base)
    (hsegments : ∀ segment ∈ source, segment ≠ "") (hnames : ∀ name ∈ base, GoesDown name) :
    placeFrom (placeFrom [] (Text.pieces sep baseText))
        (Text.pieces sep (relativeText sourceText baseText sep)) =
      placeFrom [] (Text.pieces sep sourceText) ∧
    (relativeText sourceText baseText sep).toList.head? ≠ some sep := by
  have hpieces := pieces_relativeText hsep hsource hbase
  constructor
  · rw [hpieces, hsource.pieces_eq, hbase.pieces_eq]
    exact placeFrom_relativeSegments source (unwinds_of_goesDown hnames)
  · intro hhead
    obtain ⟨rest, hrest⟩ := List.head?_eq_some_iff.mp hhead
    have htext : relativeText sourceText baseText sep =
        String.singleton sep ++ String.ofList rest := by
      apply String.toList_inj.mp
      simp [hrest]
    -- A separator in front would leave an empty segment before it.
    have hempty : "" ∈ relativeSegments source base := by
      rw [← hpieces, htext, pieces_singleton_append]
      exact List.mem_cons_self
    rcases mem_of_mem_relativeSegments hempty with h | h
    · exact absurd h (by decide)
    · exact hsegments "" h rfl

/-- Two texts with backslashes, one of which turns back right behind what they
share. The slash is part of a segment. -/
theorem placeFrom_relativeText_backslash :
    Rooted '\\' "\\a\\b\\..\\c/d" ["a", "b", "..", "c/d"] ∧
    Rooted '\\' "\\a\\b\\c/d\\e" ["a", "b", "c/d", "e"] ∧
    relativeText "\\a\\b\\..\\c/d" "\\a\\b\\c/d\\e" '\\' = "..\\..\\..\\c/d" ∧
    placeFrom (placeFrom [] (Text.pieces '\\' "\\a\\b\\c/d\\e"))
      (Text.pieces '\\' "..\\..\\..\\c/d") = ["a", "c/d"] := by
  have hsource : Rooted '\\' "\\a\\b\\..\\c/d" ["a", "b", "..", "c/d"] :=
    ⟨by decide, by decide +kernel, by decide⟩
  have hbase : Rooted '\\' "\\a\\b\\c/d\\e" ["a", "b", "c/d", "e"] :=
    ⟨by decide, by decide +kernel, by decide⟩
  have htext : relativeText "\\a\\b\\..\\c/d" "\\a\\b\\c/d\\e" '\\' = "..\\..\\..\\c/d" := by
    decide +kernel
  have hnames : ∀ name ∈ ["a", "b", "c/d", "e"], GoesDown name := by
    unfold GoesDown
    decide
  obtain ⟨hplace, -⟩ := placeFrom_relativeText (by decide) hsource hbase (by decide) hnames
  refine ⟨hsource, hbase, htext, ?_⟩
  rw [← htext, hplace]
  decide +kernel

end Separated

end SolutionTree.Path
