import SolutionTree.Path.Lexical
import SolutionTree.Proofs.Text.Pieces

/-!
Paths that go down by names.

A segment that is put behind a path adds the component that it stands for, if any,
and nothing else (`components_child_segment`), however the path is spelled; so a
plain name is one step down (`components_child`). `under` goes down by several names
(`components_under`).
-/

namespace SolutionTree.Path

/-! ### Plain names -/

/-- A plain name is any text without a slash but for the three that name no entry.
-/
theorem isPlain_iff {name : String} :
    isPlain name = true ↔ name ≠ "" ∧ name ≠ "." ∧ name ≠ ".." ∧ '/' ∉ name.toList := by
  simp [isPlain, isIdle, and_assoc]

theorem ne_empty_of_isPlain {name : String} (h : isPlain name = true) : name ≠ "" :=
  (isPlain_iff.mp h).1

theorem slash_notMem_of_isPlain {name : String} (h : isPlain name = true) : '/' ∉ name.toList :=
  (isPlain_iff.mp h).2.2.2

theorem stepOf?_of_isPlain {name : String} (h : isPlain name = true) :
    stepOf? name = some (.name name) := by
  obtain ⟨hempty, hdot, hdots, -⟩ := isPlain_iff.mp h
  simp [stepOf?, isIdle, hempty, hdot, hdots]

/-! ### One step down -/

section Child

variable {p : Path} {name : String}

theorem isAbsolute_of_slash_notMem (h : '/' ∉ name.toList) : isAbsolute ⟨name⟩ = false := by
  simpa [isAbsolute] using fun hhead => h (List.mem_of_head? hhead)

/-- The text of a child is that of the path, a slash unless one is there, and the
name. -/
theorem text_child (hp : p.text ≠ "") (h : '/' ∉ name.toList) :
    ∃ front trail, p.text = front ++ trail ∧ (p.child name).text = front ++ "/" ++ name ∧
      (trail = "" ∨ trail = "/") := by
  have hrel := isAbsolute_of_slash_notMem h
  by_cases hslash : p.text.toList.getLast? = some '/'
  · obtain ⟨front, hfront⟩ := List.getLast?_eq_some_iff.mp hslash
    refine ⟨String.ofList front, "/", ?_, ?_, .inr rfl⟩
    · apply String.toList_inj.mp
      simp [hfront]
    · simp only [child, join, hrel, hp, hslash, Bool.false_eq_true, ↓reduceIte]
      apply String.toList_inj.mp
      simp [hfront]
  · refine ⟨p.text, "", by simp, ?_, .inl rfl⟩
    simp [child, join, hrel, hp, hslash]

theorem text_child_ne (hp : p.text ≠ "") (h : '/' ∉ name.toList) : (p.child name).text ≠ "" := by
  obtain ⟨front, -, -, hchild, -⟩ := text_child hp h
  rw [hchild]
  simp

theorem isAbsolute_child (hp : p.text ≠ "") (h : '/' ∉ name.toList) :
    (p.child name).isAbsolute = p.isAbsolute := by
  obtain ⟨front, trail, htext, hchild, htrail⟩ := text_child hp h
  rw [isAbsolute, isAbsolute, hchild, htext]
  rcases htrail with rfl | rfl
  · cases hfront : front.toList with
    | nil => exact absurd (htext.trans (by simpa using hfront)) hp
    | cons c cs => simp [hfront]
  · cases hfront : front.toList with
    | nil => simp [hfront]
    | cons c cs => simp [hfront]

theorem segments_ne_nil (p : Path) : p.segments ≠ [] :=
  Text.pieces_ne_nil '/' p.text

/-- A path and its child share their first segments. What the path has behind them,
if anything, is the empty segment of a slash at its end. -/
theorem segments_child (hp : p.text ≠ "") (h : '/' ∉ name.toList) :
    ∃ first rest trail, p.segments = first :: rest ++ trail ∧ (trail = [] ∨ trail = [""]) ∧
      (p.child name).segments = first :: rest ++ [name] := by
  obtain ⟨front, trail, htext, hchild, htrail⟩ := text_child hp h
  have hsegments : (p.child name).segments = Text.pieces '/' front ++ [name] := by
    rw [segments, hchild, ← Text.pieces_of_notMem h]
    exact Text.pieces_append front name
  obtain ⟨first, rest, hcons⟩ := List.exists_cons_of_ne_nil (segments_ne_nil ⟨front⟩)
  have hfront : Text.pieces '/' front = first :: rest := hcons
  rw [hfront] at hsegments
  rcases htrail with rfl | rfl
  · refine ⟨first, rest, [], ?_, .inl rfl, hsegments⟩
    rw [segments, htext, String.append_empty, hfront, List.append_nil]
  · refine ⟨first, rest, [""], ?_, .inr rfl, hsegments⟩
    rw [segments, htext, ← hfront, ← String.append_empty (s := front ++ "/")]
    exact Text.pieces_append front ""

/-- The anchor of a path is told by its first segment. -/
theorem anchored_append {q : Path} {first : String} {rest behind behind' : List String}
    (hp : p.segments = first :: rest ++ behind) (hq : q.segments = first :: rest ++ behind')
    (habs : q.isAbsolute = p.isAbsolute) :
    ∃ anchor body, p.anchored = (anchor, body ++ behind) ∧
      q.anchored = (anchor, body ++ behind') := by
  rw [List.cons_append] at hp hq
  by_cases hempty : first = ""
  · subst hempty
    cases hroot : p.isAbsolute with
    | true =>
      refine ⟨.root, rest, ?_, ?_⟩
      · simp [anchored, hp, hroot]
      · simp [anchored, hq, habs, hroot]
    | false =>
      refine ⟨.plain, "" :: rest, ?_, ?_⟩
      · simp [anchored, hp, hroot]
      · simp [anchored, hq, habs, hroot]
  · by_cases hdot : first = "."
    · subst hdot
      exact ⟨.here, rest, by simp [anchored, hp], by simp [anchored, hq]⟩
    · exact ⟨.plain, first :: rest, by simp [anchored, hp, hempty, hdot],
        by simp [anchored, hq, hempty, hdot]⟩

/-- **A segment adds what it stands for** to the components, which may be nothing.
-/
theorem components_child_segment (hp : p.text ≠ "") (h : '/' ∉ name.toList) :
    (p.child name).components = p.components ++ (stepOf? name).toList := by
  obtain ⟨first, rest, trail, hsegments, htrail, hchild⟩ := segments_child hp h
  obtain ⟨anchor, body, hanchor, hanchor'⟩ :=
    anchored_append hsegments hchild (isAbsolute_child hp h)
  have hidle : trail.filterMap stepOf? = [] := by
    rcases htrail with rfl | rfl
    · rfl
    · rfl
  cases hstep : stepOf? name with
  | none => simp [components, hanchor, hanchor', hidle, hstep]
  | some step => simp [components, hanchor, hanchor', hidle, hstep]

/-- **A plain name is one more component.** Whether the path ends with a slash, with
a dot or is only an anchor, the name behind it adds just itself. -/
theorem components_child (hp : p.text ≠ "") (h : isPlain name = true) :
    (p.child name).components = p.components ++ [.name name] := by
  rw [components_child_segment hp (slash_notMem_of_isPlain h), stepOf?_of_isPlain h]
  rfl

/-- The name of an entry is the file name of its path. -/
theorem fileName?_child (hp : p.text ≠ "") (h : isPlain name = true) :
    (p.child name).fileName? = some name := by
  simp [fileName?, components_child hp h]

end Child

/-! ### Several steps down -/

/-- The path that names lead to from a root. -/
def under (root : Path) (names : List String) : Path :=
  names.foldl child root

section Under

variable {root : Path} {names : List String}

@[simp] theorem under_nil (root : Path) : root.under [] = root := rfl

@[simp] theorem under_cons (root : Path) (name : String) (names : List String) :
    root.under (name :: names) = (root.child name).under names := rfl

/-- Going down can be parted at any name. -/
theorem under_append (root : Path) (xs ys : List String) :
    root.under (xs ++ ys) = (root.under xs).under ys := List.foldl_append

theorem text_under_ne (hroot : root.text ≠ "") (h : ∀ name ∈ names, isPlain name = true) :
    (root.under names).text ≠ "" := by
  induction names generalizing root with
  | nil => exact hroot
  | cons name names ih =>
    have ⟨hname, hnames⟩ := List.forall_mem_cons.mp h
    exact ih (text_child_ne hroot (slash_notMem_of_isPlain hname)) hnames

/-- Going down by plain names adds one component for each of them. -/
theorem components_under (hroot : root.text ≠ "") (h : ∀ name ∈ names, isPlain name = true) :
    (root.under names).components = root.components ++ names.map .name := by
  induction names generalizing root with
  | nil => simp
  | cons name names ih =>
    have ⟨hname, hnames⟩ := List.forall_mem_cons.mp h
    rw [under_cons, ih (text_child_ne hroot (slash_notMem_of_isPlain hname)) hnames,
      components_child hroot hname]
    simp

end Under

end SolutionTree.Path
