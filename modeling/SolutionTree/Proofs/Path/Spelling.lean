import SolutionTree.Proofs.Path.Directory
import SolutionTree.Proofs.Path.Relative
import SolutionTree.Proofs.Path.Slashed

/-!
Absolute paths that are spelled without empty segments.

A path spells segments when it is a slash and the segments with slashes between
them, at most with one more slash at its end. What is put behind such a path comes
after its segments (`Spells.segments_join`), and a path relative to it leads back to
the place that it was made from (`Spells.place_join_relative`) when the segments of
the base are plain names. An empty segment, a dot or two dots in the base would
break this.
-/

namespace SolutionTree.Path

/-- What stands between slashes: a text that is not empty and has no slash in it. -/
def IsSegment (s : String) : Prop :=
  s ≠ "" ∧ '/' ∉ s.toList

instance (s : String) : Decidable (IsSegment s) :=
  inferInstanceAs (Decidable (_ ∧ _))

theorem isSegment_of_isPlain {name : String} (h : isPlain name = true) : IsSegment name :=
  ⟨ne_empty_of_isPlain h, slash_notMem_of_isPlain h⟩

/-- Whether a path is a slash and segments with slashes between them, at most with
one more slash at its end. -/
def Spells (p : Path) (names : List String) : Prop :=
  p = ofPlace names ∨ names ≠ [] ∧ p.text = (ofPlace names).text ++ "/"

/-- The text of a place before a slash and more segments. -/
def frontText (names : List String) : String :=
  if names = [] then "" else (ofPlace names).text

/-- The segments of a place behind the first slash. -/
def tailSegments (names : List String) : List String :=
  if names = [] then [""] else names

variable {p base : Path} {names segments : List String} {name rel : String}

/-! ### Texts -/

theorem eq_of_text_eq {q : Path} (h : p.text = q.text) : p = q := by
  cases p
  cases q
  exact congrArg Path.mk h

/-- A slash at its end does not change where a path leads to. -/
theorem place_append_slash (text : String) : place ⟨text ++ "/"⟩ = place ⟨text⟩ := by
  have hpieces : Text.pieces '/' (text ++ "/") = Text.pieces '/' text ++ [""] :=
    Text.pieces_append_singleton text
  simp [place, segments, hpieces, placeFrom_append, stepPlace, isIdle]

/-- A path with a slash at its end has an empty segment behind it. -/
theorem exists_front_of_getLast?_slash (h : p.text.toList.getLast? = some '/') :
    ∃ front, p = ⟨front ++ "/"⟩ ∧ p.segments = Text.pieces '/' front ++ [""] := by
  obtain ⟨front, hfront⟩ := List.getLast?_eq_some_iff.mp h
  obtain rfl : p = ⟨String.ofList front ++ "/"⟩ := by
    apply eq_of_text_eq
    apply String.toList_inj.mp
    simpa using hfront
  exact ⟨_, rfl, Text.pieces_append_singleton _⟩

theorem spells_ofPlace (names : List String) : (ofPlace names).Spells names := .inl rfl

/-- Segments behind a place are written behind its text, and the root does not get a
second slash. -/
theorem text_ofPlace_append (names : List String) (hne : segments ≠ []) :
    (ofPlace (names ++ segments)).text = frontText names ++ "/" ++ dirText segments := by
  by_cases hnames : names = []
  · simp [hnames, frontText, ofPlace, dirText]
  · simp [hnames, frontText, ofPlace, dirText, String.intercalate_append_of_ne_nil hnames hne,
      String.append_assoc]

theorem text_ofPlace_ne (names : List String) : (ofPlace names).text ≠ "" := by
  simp [ofPlace]

theorem isAbsolute_ofPlace (names : List String) : (ofPlace names).isAbsolute = true := by
  simp [isAbsolute, ofPlace]

theorem isAbsolute_eq_false (h : IsSegment name) : isAbsolute ⟨name⟩ = false := by
  simp only [isAbsolute, beq_eq_false_iff_ne]
  exact fun hhead => h.2 (List.mem_of_mem_head? hhead)

section Segments

variable (h : ∀ name ∈ names, IsSegment name)
include h

/-- A place below the root has no slash at its end. -/
theorem getLast?_text_ofPlace (hne : names ≠ []) :
    (ofPlace names).text.toList.getLast? ≠ some '/' := by
  obtain ⟨front, last, rfl⟩ := (List.eq_nil_or_concat' names).resolve_left hne
  have ⟨hempty, hslash⟩ := h last (by simp)
  have htext : (ofPlace (front ++ [last])).text = frontText front ++ "/" ++ last := by
    simpa [dirText] using text_ofPlace_append front (List.cons_ne_nil last [])
  obtain ⟨cs, c, hcs⟩ :=
    (List.eq_nil_or_concat' last.toList).resolve_left (mt String.toList_eq_nil_iff.mp hempty)
  have hc : c ≠ '/' := by
    rintro rfl
    exact hslash (by simp [hcs])
  rw [htext, String.toList_append, hcs, ← List.append_assoc, List.getLast?_concat]
  simpa using hc

theorem pieces_frontText : Text.pieces '/' (frontText names) = "" :: names := by
  by_cases hne : names = []
  · subst hne
    exact Text.pieces_of_notMem (by simp [frontText])
  · have hslash : ∀ name ∈ names, '/' ∉ name.toList := fun name hm => (h name hm).2
    have hpieces : Text.pieces '/' ("" ++ "/" ++ dirText names) =
        Text.pieces '/' "" ++ Text.pieces '/' (dirText names) :=
      Text.pieces_append "" (dirText names)
    have hempty : Text.pieces '/' "" = [""] := Text.pieces_of_notMem (by simp)
    rw [hempty, dirText, show "/" = String.singleton '/' from rfl,
      Text.pieces_intercalate hslash hne] at hpieces
    simpa [frontText, hne, ofPlace] using hpieces

theorem segments_ofPlace : (ofPlace names).segments = "" :: tailSegments names := by
  by_cases hne : names = []
  · subst hne
    exact Text.pieces_append "" ""
  · have hpieces := pieces_frontText h
    simpa [segments, frontText, tailSegments, hne] using hpieces

namespace Spells

/-- **What is put behind a path** comes after its text, one slash apart, whether the
path ends with one or not. -/
theorem text_join (hbase : base.Spells names) (hrel : isAbsolute ⟨rel⟩ = false) :
    (base.join ⟨rel⟩).text = frontText names ++ "/" ++ rel := by
  rcases hbase with rfl | ⟨hne, htext⟩
  · by_cases hne : names = []
    · subst hne
      simp [join, hrel, ofPlace, frontText]
    · have hlast := getLast?_text_ofPlace h hne
      simp [join, hrel, hlast, text_ofPlace_ne, frontText, hne]
  · simp [join, hrel, htext, frontText, hne]

/-- Below a path that is spelled by segments, a relative text adds its pieces to
them. -/
theorem segments_join (hbase : base.Spells names) (hrel : isAbsolute ⟨rel⟩ = false) :
    (base.join ⟨rel⟩).segments = "" :: names ++ Text.pieces '/' rel := by
  rw [Path.segments, text_join h hbase hrel, ← pieces_frontText h]
  exact Text.pieces_append (frontText names) rel

/-- A slash behind a relative text does not change where it leads to. -/
theorem place_join_append_slash (hbase : base.Spells names) (hrel : isAbsolute ⟨rel⟩ = false)
    (hne : rel ≠ "") : (base.join ⟨rel ++ "/"⟩).place = (base.join ⟨rel⟩).place := by
  have hrel' : isAbsolute ⟨rel ++ "/"⟩ = false := by
    obtain ⟨c, cs, hcs⟩ := List.exists_cons_of_ne_nil (mt String.toList_eq_nil_iff.mp hne)
    simpa [isAbsolute, hcs] using hrel
  have htext : (base.join ⟨rel ++ "/"⟩).text = (base.join ⟨rel⟩).text ++ "/" := by
    rw [text_join h hbase hrel', text_join h hbase hrel]
    simp only [String.append_assoc]
  have hpath : base.join ⟨rel ++ "/"⟩ = ⟨(base.join ⟨rel⟩).text ++ "/"⟩ := eq_of_text_eq htext
  rw [hpath, place_append_slash]

/-- An entry below a place is at the place with one more name. -/
theorem child_eq (hbase : base.Spells names) (hname : IsSegment name) :
    base.child name = ofPlace (names ++ [name]) := by
  apply eq_of_text_eq
  rw [Path.child, text_join h hbase (isAbsolute_eq_false hname),
    text_ofPlace_append names (List.cons_ne_nil name [])]
  simp [dirText]

end Spells

theorem place_ofPlace : (ofPlace names).place = placeFrom [] names := by
  rw [place, segments_ofPlace h]
  by_cases hne : names = []
  · subst hne
    rfl
  · simp [tailSegments, hne, stepPlace, isIdle]

theorem Spells.place_eq (hbase : base.Spells names) : base.place = placeFrom [] names := by
  rcases hbase with rfl | ⟨-, htext⟩
  · exact place_ofPlace h
  · have hplace := place_append_slash (ofPlace names).text
    rw [← htext] at hplace
    exact hplace.trans (place_ofPlace h)

end Segments

/-- A place is read back from its path when its names are plain: none of them is a
step up, or none at all. -/
theorem place_ofPlace_of_isPlain (h : ∀ name ∈ names, isPlain name = true) :
    (ofPlace names).place = names := by
  rw [place_ofPlace fun name hm => isSegment_of_isPlain (h name hm), placeFrom_of_isPlain [] h,
    List.nil_append]

/-- Going down from a place is adding names to it. -/
theorem under_ofPlace {below : List String} (h : ∀ name ∈ names, IsSegment name)
    (hbelow : ∀ name ∈ below, IsSegment name) :
    (ofPlace names).under below = ofPlace (names ++ below) := by
  induction below generalizing names with
  | nil => simp
  | cons name below ih =>
    have ⟨hname, hbelow'⟩ := List.forall_mem_cons.mp hbelow
    have hnames : ∀ s ∈ names ++ [name], IsSegment s :=
      List.forall_mem_append.mpr ⟨h, by simpa using hname⟩
    rw [under_cons, (spells_ofPlace names).child_eq h hname, ih hnames hbelow']
    simp

/-! ### Characters -/

section Characters

variable {c : Char}

theorem mem_dirText_iff (hc : c ≠ '/') :
    c ∈ (dirText names).toList ↔ ∃ name ∈ names, c ∈ name.toList := by
  induction names with
  | nil => simp
  | cons name names ih =>
    by_cases hne : names = []
    · simp [hne, dirText]
    · rw [dirText, String.intercalate_cons_of_ne_nil hne, ← dirText]
      simp [ih, hc]

/-- The path of a place has the characters of its names and slashes, and no other.
-/
theorem mem_text_ofPlace_iff (hc : c ≠ '/') :
    c ∈ (ofPlace names).text.toList ↔ ∃ name ∈ names, c ∈ name.toList := by
  rw [← mem_dirText_iff hc, ofPlace, ← dirText]
  simp [hc]

theorem Spells.mem_text_iff (hbase : base.Spells names) (hc : c ≠ '/') :
    c ∈ base.text.toList ↔ ∃ name ∈ names, c ∈ name.toList := by
  rw [← mem_text_ofPlace_iff hc]
  rcases hbase with rfl | ⟨-, htext⟩
  · rfl
  · simp [htext, hc]

end Characters

/-! ### Paths relative to a base -/

theorem text_ofPlace_concat (front : List String) (last : String) :
    (ofPlace (front ++ [last])).text = frontText front ++ "/" ++ last := by
  simpa [dirText] using text_ofPlace_append front (List.cons_ne_nil last [])

/-- Writing a path with slashes for backslashes leaves what stands before its last
solid part alone, if that has no backslash. -/
theorem slashed_append_of_notMem (front : String) {s : String} (h : IsSolid s)
    (hback : '\\' ∉ front.toList) :
    (⟨front ++ s⟩ : Path).slashed = front ++ (⟨s⟩ : Path).slashed := by
  rw [slashed_append front h, Text.replace_of_notMem hback]

/-- A path without backslashes is written with slashes as it is, without a slash at
its end. -/
theorem Spells.slashed_eq (h : ∀ name ∈ names, IsSegment name) (hbase : base.Spells names)
    (hback : '\\' ∉ base.text.toList) : base.slashed = (ofPlace names).text := by
  rcases List.eq_nil_or_concat' names with rfl | ⟨front, last, rfl⟩
  · obtain rfl := hbase.resolve_right (by simp)
    decide
  · have ⟨hempty, hslash⟩ := h last (by simp)
    rw [text_ofPlace_concat]
    rcases hbase with rfl | ⟨-, htext⟩
    · rw [text_ofPlace_concat, String.toList_append, List.mem_append, not_or] at hback
      have hsolid := isSolid_of_notMem hempty hslash hback.2
      have hsplit := slashed_append_of_notMem _ hsolid hback.1
      rwa [← text_ofPlace_concat, slashed_of_notMem hempty hslash hback.2] at hsplit
    · rw [text_ofPlace_concat, String.append_assoc] at htext
      rw [htext, String.toList_append, List.mem_append, not_or] at hback
      have hlast : '\\' ∉ last.toList := fun hmem => hback.2 (by simp [hmem])
      have hsolid := (isSolid_of_notMem hempty hslash hlast).append_right "/"
      have hsplit := slashed_append_of_notMem _ hsolid hback.1
      rwa [← htext, slashed_append_slash hempty hslash hlast] at hsplit

theorem tailSegments_ne_nil (names : List String) : tailSegments names ≠ [] := by
  by_cases hne : names = []
  · simp [tailSegments, hne]
  · simp [tailSegments, hne]

theorem placeFrom_tailSegments (place names : List String) :
    placeFrom place (tailSegments names) = placeFrom place names := by
  by_cases hne : names = []
  · simp [tailSegments, hne, stepPlace, isIdle]
  · simp [tailSegments, hne]

theorem unwinds_tailSegments (h : ∀ name ∈ names, isPlain name = true) :
    Unwinds (tailSegments names) := by
  by_cases hne : names = []
  · simpa [tailSegments, hne] using unwinds_root
  · simpa [tailSegments, hne] using unwinds_of_isPlain h

/-- A path starts at the root when it has an empty segment and then another one. -/
theorem exists_segments_of_isAbsolute (rel : String) (h : isAbsolute ⟨rel⟩ = true) :
    ∃ rest, Text.pieces '/' rel = "" :: rest ∧ rest ≠ [] := by
  obtain ⟨cs, hcs⟩ : ∃ cs, rel.toList = '/' :: cs := by
    cases hcs : rel.toList with
    | nil => simp [isAbsolute, hcs] at h
    | cons c cs =>
      obtain rfl : c = '/' := by simpa [isAbsolute, hcs] using h
      exact ⟨cs, rfl⟩
  have htext : rel = "" ++ String.singleton '/' ++ String.ofList cs := by
    apply String.toList_inj.mp
    simp [hcs]
  refine ⟨Text.pieces '/' (String.ofList cs), ?_, Text.pieces_ne_nil '/' _⟩
  rw [htext, Text.pieces_append, Text.pieces_of_notMem (s := "") (by simp)]
  rfl

section Relative

variable (hsegments : ∀ s ∈ segments, IsSegment s) (hnames : ∀ name ∈ names, IsSegment name)
  (hbase : base.Spells names) (hback : '\\' ∉ base.text.toList)
  (hback' : '\\' ∉ (ofPlace segments).text.toList)
include hsegments hnames hbase hback hback'

/-- **The way between two places**, where no segment has a backslash, is made of
their segments. -/
theorem pieces_relative_ofPlace :
    Text.pieces '/' ((ofPlace segments).relative base) =
      relativeSegments (tailSegments segments) (tailSegments names) := by
  have hsource : Text.pieces '/' (ofPlace segments).slashed = "" :: tailSegments segments := by
    rw [(spells_ofPlace segments).slashed_eq hsegments hback']
    exact segments_ofPlace hsegments
  have hto : Text.pieces '/' base.slashed = "" :: tailSegments names := by
    rw [hbase.slashed_eq hnames hback]
    exact segments_ofPlace hnames
  rw [pieces_relative, hsource, hto]
  exact relativeSegments_append [""] (tailSegments_ne_nil segments)

theorem isAbsolute_relative : isAbsolute ⟨(ofPlace segments).relative base⟩ = false := by
  rw [Bool.eq_false_iff]
  intro habs
  obtain ⟨rest, hpieces, hrest⟩ := exists_segments_of_isAbsolute _ habs
  rw [pieces_relative_ofPlace hsegments hnames hbase hback hback'] at hpieces
  by_cases hne : segments = []
  · -- From any base to the root: as many steps back as the base has segments, and at least one.
    obtain ⟨first, others, hcons⟩ := List.exists_cons_of_ne_nil (tailSegments_ne_nil names)
    rw [hne, show tailSegments [] = [""] from rfl, relativeSegments_singleton, hcons,
      List.length_cons, List.replicate_succ, List.cons_append, List.cons.injEq] at hpieces
    exact absurd hpieces.1 (by decide)
  · have hempty : "" ∈ relativeSegments (tailSegments segments) (tailSegments names) := by
      simp [hpieces]
    rcases mem_of_mem_relativeSegments hempty with h | h
    · exact absurd h (by decide)
    · simp only [tailSegments, hne, ↓reduceIte] at h
      exact (hsegments "" h).1 rfl

/-- **A path relative to a base leads back**, from a base that is spelled by plain
names. -/
theorem Spells.place_join_relative (hplain : ∀ name ∈ names, isPlain name = true) :
    (base.join ⟨(ofPlace segments).relative base⟩).place = placeFrom [] segments := by
  have hplace : placeFrom [] ("" :: names) = placeFrom [] (tailSegments names) := by
    rw [placeFrom_tailSegments]
    rfl
  rw [place, hbase.segments_join hnames
      (isAbsolute_relative hsegments hnames hbase hback hback'),
    pieces_relative_ofPlace hsegments hnames hbase hback hback', placeFrom_append, hplace,
    placeFrom_relativeSegments _ (unwinds_tailSegments hplain), placeFrom_tailSegments]

end Relative

end SolutionTree.Path
