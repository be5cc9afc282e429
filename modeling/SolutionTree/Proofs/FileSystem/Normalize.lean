import Mathlib.Algebra.GroupWithZero.Nat
import SolutionTree.Proofs.FileSystem.Follow
import SolutionTree.Proofs.Path.Spelling

/-!
The one spelling of a path that can be followed.

A path that leads somewhere leads to the place that its text denotes
(`place_of_follow`): nothing on the way can stand for another place. So an absolute
path that is found is normalized to that place (`normalize_of_node?`), and a place
that is spelled by plain names stays as it is (`normalize_ofPlace`).
-/

namespace SolutionTree

namespace Path

variable {place names segments : List String} {segment : String}

/-! ### Widths -/

/-- The bytes that names take with a slash before each. -/
def width (names : List String) : Nat :=
  (names.map fun name => name.utf8ByteSize + 1).sum

@[simp] theorem width_nil : width [] = 0 := rfl

@[simp] theorem width_cons (name : String) (names : List String) :
    width (name :: names) = name.utf8ByteSize + 1 + width names := rfl

theorem width_append (xs ys : List String) : width (xs ++ ys) = width xs + width ys := by
  simp [width]

/-- The width counts a slash before each name, of which a text without a leading
slash lacks one. -/
theorem width_intercalate (hne : names ≠ []) :
    (String.intercalate "/" names).utf8ByteSize + 1 = width names := by
  induction names with
  | nil => contradiction
  | cons name names ih =>
    by_cases hnames : names = []
    · simp [hnames]
    · have hslash : "/".utf8ByteSize = 1 := by decide
      rw [String.intercalate_cons_of_ne_nil hnames, width_cons, ← ih hnames]
      simp only [String.utf8ByteSize_append, hslash]
      omega

theorem width_segments (p : Path) : width p.segments = p.text.utf8ByteSize + 1 := by
  rw [← width_intercalate (segments_ne_nil p)]
  congr 2
  exact Text.intercalate_pieces '/' p.text

theorem size_text_ofPlace (hne : names ≠ []) :
    (ofPlace names).text.utf8ByteSize = width names := by
  have hslash : "/".utf8ByteSize = 1 := by decide
  rw [← width_intercalate hne, ofPlace]
  simp only [String.utf8ByteSize_append, hslash]
  omega

/-! ### Places of segments -/

theorem width_stepPlace_le (place : List String) (segment : String) :
    width (stepPlace place segment) ≤ width place + (segment.utf8ByteSize + 1) := by
  unfold stepPlace
  split
  · omega
  · split
    · have hdrop : width place = width place.dropLast + width (place.drop (place.length - 1)) := by
        rw [← width_append, List.dropLast_eq_take, List.take_append_drop]
      omega
    · simp [width_append]

theorem isPlain_stepPlace (hplace : ∀ name ∈ place, isPlain name = true)
    (hslash : '/' ∉ segment.toList) : ∀ name ∈ stepPlace place segment, isPlain name = true := by
  unfold stepPlace
  split
  · exact hplace
  next hidle =>
    split
    · exact fun name hm => hplace name (List.dropLast_subset place hm)
    next hup =>
      simp only [List.mem_append, List.mem_singleton]
      rintro name (hm | rfl)
      · exact hplace name hm
      · simp [isPlain, hidle, hup, hslash]

theorem isPlain_placeFrom (hplace : ∀ name ∈ place, isPlain name = true)
    (hslash : ∀ segment ∈ segments, '/' ∉ segment.toList) :
    ∀ name ∈ placeFrom place segments, isPlain name = true := by
  induction segments generalizing place with
  | nil => exact hplace
  | cons segment segments ih =>
    have ⟨hsegment, hsegments⟩ := List.forall_mem_cons.mp hslash
    exact ih (isPlain_stepPlace hplace hsegment) hsegments

/-- Steps do not make a place longer than they are long. So a place that is come to
along a path that fits can be spelled in a path that fits. -/
theorem width_placeFrom_le (place segments : List String) :
    width (placeFrom place segments) ≤ width place + width segments := by
  induction segments generalizing place with
  | nil => simp
  | cons segment segments ih =>
    have hstep := width_stepPlace_le place segment
    have hrest := ih (stepPlace place segment)
    rw [placeFrom_cons, width_cons]
    omega

/-- A place is made of nothing but what was there and what was entered. -/
theorem mem_of_mem_placeFrom {name : String} (h : name ∈ placeFrom place segments) :
    name ∈ place ∨ name ∈ segments := by
  induction segments generalizing place with
  | nil => exact .inl h
  | cons segment segments ih =>
    rcases ih h with hstep | hrest
    · unfold stepPlace at hstep
      split at hstep
      · exact .inl hstep
      · split at hstep
        · exact .inl (List.dropLast_subset place hstep)
        · rcases List.mem_append.mp hstep with h | h
          · exact .inl h
          · obtain rfl := List.mem_singleton.mp h
            exact .inr List.mem_cons_self
    · exact .inr (List.mem_cons_of_mem segment hrest)

/-- The names of a place are plain. -/
theorem isPlain_place (p : Path) : ∀ name ∈ p.place, isPlain name = true :=
  isPlain_placeFrom (by simp) fun _ => Text.notMem_of_mem_pieces

theorem isAbsolute_join {base : Path} (h : base.isAbsolute = true) (p : Path) :
    (base.join p).isAbsolute = true := by
  by_cases hp : p.isAbsolute = true
  · rwa [join_of_isAbsolute base hp]
  · obtain ⟨cs, hcs⟩ : ∃ cs, base.text.toList = '/' :: cs := by
      cases hcs : base.text.toList with
      | nil => simp [isAbsolute, hcs] at h
      | cons c cs =>
        obtain rfl : c = '/' := by simpa [isAbsolute, hcs] using h
        exact ⟨cs, rfl⟩
    have hempty : base.text ≠ "" := by
      intro hempty
      simp [hempty] at hcs
    rw [join, if_neg hp, if_neg hempty]
    split
    · simp [isAbsolute, hcs]
    · simp [isAbsolute, hcs]

end Path

namespace FileSystem

open FileTree (Position)

variable {fs : FileSystem} {p : Path} {here there : Position} {node : FileTree}
  {place names segments : List String}

/-! ### Following and places -/

theorem place_up (here : Position) : here.up.place = here.place.dropLast := by
  cases habove : here.above with
  | nil => simp [Position.up, Position.place, habove]
  | cons entry above => simp [Position.up, Position.place, habove]

/-- **Following segments leads to the place that they denote.** There are no links
here, so that a step up undoes the last step down. -/
theorem place_of_follow (h : follow here segments = .ok there) :
    there.place = Path.placeFrom here.place segments := by
  induction segments generalizing here with
  | nil =>
    rw [← Except.ok.inj h]
    rfl
  | cons segment segments ih =>
    rw [Path.placeFrom_cons, Path.stepPlace]
    simp only [follow] at h
    split at h
    · contradiction
    · by_cases hidle : Path.isIdle segment = true
      · rw [if_pos hidle] at h ⊢
        exact ih h
      · by_cases hup : segment = ".."
        · rw [if_neg hidle, if_pos hup] at h ⊢
          rw [← place_up]
          exact ih h
        · rw [if_neg hidle, if_neg hup] at h ⊢
          split at h
          next next hnext =>
            rw [← Position.place_of_enter? hnext]
            exact ih h
          · contradiction

theorem followFrom_of_isAbsolute (habs : p.isAbsolute = true) :
    fs.followFrom p p.segments = follow (Position.top fs.tree) p.segments := by
  simp [followFrom, startPlace, habs, Position.descend?]

/-- Where segments are followed to is where they lead lexically: no link leads
elsewhere. -/
theorem place_of_followFrom (habs : p.isAbsolute = true)
    (h : fs.followFrom p p.segments = .ok there) : there.place = p.place := by
  rw [followFrom_of_isAbsolute habs] at h
  exact place_of_follow h

/-! ### Lengths -/

/-- If a place and all segments behind it fit together, each place on the way fits.
-/
theorem spellingsFit_of_width (h : Path.width place + Path.width segments < 4096) :
    spellingsFit place segments = true := by
  induction segments generalizing place with
  | nil => rfl
  | cons segment segments ih =>
    have hstep := Path.width_stepPlace_le place segment
    rw [Path.width_cons] at h
    have hrest : spellingsFit (Path.stepPlace place segment) segments = true := ih (by omega)
    simp only [spellingsFit, hrest, Bool.and_true, Bool.or_eq_true, beq_iff_eq]
    by_cases hidle : Path.isIdle segment = true
    · exact .inl (.inl hidle)
    · by_cases hup : segment = ".."
      · exact .inl (.inr hup)
      · right
        have hname : Path.stepPlace place segment = place ++ [segment] := by
          simp [Path.stepPlace, hidle, hup]
        -- A slash is asked for only where something is left, which has one of its own.
        have hasks : (if asksDirectory segments then 1 else 0) ≤ Path.width segments := by
          cases segments with
          | nil => simp [asksDirectory]
          | cons next rest =>
            rw [Path.width_cons]
            split
            · omega
            · omega
        have hne : Path.stepPlace place segment ≠ [] := by simp [hname]
        have hsize := Path.size_text_ofPlace hne
        simp only [spellingFits, lengthFits, hsize, decide_eq_true_eq]
        omega

/-- Whatever fits as it is written also fits on the way. -/
theorem spellingsFit_segments (habs : p.isAbsolute = true)
    (h : lengthFits p.text.utf8ByteSize = true) : spellingsFit [] p.segments = true := by
  obtain ⟨rest, hsegments, -⟩ := Path.exists_segments_of_isAbsolute p.text habs
  have hwidth := Path.width_segments p
  have hlength : p.text.utf8ByteSize < 4096 := by simpa [lengthFits] using h
  rw [Path.segments, hsegments] at hwidth ⊢
  rw [Path.width_cons] at hwidth
  have hempty : "".utf8ByteSize = 0 := rfl
  have hrest : spellingsFit [] rest = true := spellingsFit_of_width (by simp; omega)
  simpa [spellingsFit, Path.stepPlace, Path.isIdle] using hrest

/-! ### Normalizing -/

/-- Normalizing leaves a path alone, or gives the one spelling of the place that it
leads to. -/
theorem normalize_eq_or (fs : FileSystem) (p : Path) :
    fs.normalize p = p ∨
      ∃ there, fs.followFrom p p.segments = .ok there ∧ fs.normalize p = .ofPlace there.place := by
  unfold normalize
  split
  next there _ hthere =>
    split
    · exact .inr ⟨there, hthere, rfl⟩
    · exact .inl rfl
  · exact .inl rfl

theorem refusal?_eq_none_iff :
    refusal? p = none ↔ misspelling? p = none ∧ lengthFits p.text.utf8ByteSize = true := by
  unfold refusal?
  split
  next e he => simp [he]
  next he => simp [he]

/-- **An absolute path that is found is normalized to its place.** Only the length
of spellings on the way could keep it from that, and it does not: the path was
found. -/
theorem normalize_of_node? (habs : p.isAbsolute = true) (h : fs.node? p = .ok node) :
    fs.normalize p = .ofPlace p.place := by
  obtain ⟨hrefusal, there, hfollow, -⟩ := node?_eq_ok_iff.mp h
  obtain ⟨hspelled, hfits⟩ := refusal?_eq_none_iff.mp hrefusal
  have hstart : fs.startPlace p = [] := by simp [startPlace, habs]
  have hspellings := spellingsFit_segments habs hfits
  simp [normalize, hspelled, hfollow, hstart, hspellings, place_of_followFrom habs hfollow]

/-- A path that is already spelled by plain names is its own normal form, whether
anything stands there or not. -/
theorem normalize_ofPlace (fs : FileSystem) (h : ∀ name ∈ names, Path.isPlain name = true) :
    fs.normalize (.ofPlace names) = .ofPlace names := by
  rcases normalize_eq_or fs (.ofPlace names) with heq | ⟨there, hfollow, heq⟩
  · exact heq
  · rw [heq, place_of_followFrom (Path.isAbsolute_ofPlace names) hfollow,
      Path.place_ofPlace_of_isPlain h]

theorem exists_node_of_isDir (h : fs.isDir p = true) :
    ∃ entries, fs.node? p = .ok (.dir entries) := by
  unfold isDir at h
  split at h
  next node hnode =>
    cases node with
    | file content => contradiction
    | dir entries => exact ⟨entries, hnode⟩
  · contradiction

/-- A directory whose path was normalized is known by its place. -/
theorem normalize_of_isDir (habs : p.isAbsolute = true) (h : fs.isDir (fs.normalize p) = true) :
    fs.normalize p = .ofPlace p.place := by
  rcases normalize_eq_or fs p with heq | ⟨there, hfollow, heq⟩
  · rw [heq] at h
    obtain ⟨entries, hnode⟩ := exists_node_of_isDir h
    exact normalize_of_node? habs hnode
  · rw [heq, place_of_followFrom habs hfollow]

end FileSystem

end SolutionTree
