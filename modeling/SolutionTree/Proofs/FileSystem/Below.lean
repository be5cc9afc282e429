import SolutionTree.Proofs.FileSystem.Normalize

/-!
What a file system has below a directory.

Below a directory that is found, a path that is not refused leads to what the tree
of the directory has there, or fails as the tree makes it fail
(`node?_ofPlace_append`); where the directory stands does not matter.
-/

namespace SolutionTree.FileSystem

open FileTree (Position)

variable {fs : FileSystem} {tree node : FileTree} {here there : Position}
  {place names : List String}

/-- What names lead to from the top of a tree. -/
def seek (tree : FileTree) (names : List String) : Except IoError FileTree :=
  (follow (.top tree) names).map (·.node)

section Names

variable (hnames : ∀ name ∈ names, Path.isPlain name = true)
include hnames

/-- Plain names lead to the same from two positions of the same node: the way back
up does not count for going down. -/
theorem map_node_follow_congr (hnode : here.node = there.node) :
    (follow here names).map (·.node) = (follow there names).map (·.node) := by
  induction names generalizing here there with
  | nil => simp [follow, Except.map, hnode]
  | cons name names ih =>
    obtain ⟨hname, hrest⟩ := List.forall_mem_cons.mp hnames
    obtain ⟨hempty, hdot, hup, -⟩ := Path.isPlain_iff.mp hname
    have hidle : Path.isIdle name = false := by simp [Path.isIdle, hempty, hdot]
    simp only [follow, hnode, hidle, hup, Bool.false_eq_true, ↓reduceIte, Position.enter?]
    cases there.node with
    | file content => rfl
    | dir entries =>
      dsimp only
      cases (FileTree.dir entries).entries.lookup name with
      | none => rfl
      | some next => exact ih hrest rfl

theorem seek_eq_ok_iff : seek tree names = .ok node ↔ tree.find? names = some node := by
  induction names generalizing tree with
  | nil => simp [seek, follow, Except.map, Position.top]
  | cons name names ih =>
    obtain ⟨hname, hrest⟩ := List.forall_mem_cons.mp hnames
    obtain ⟨hempty, hdot, hup, -⟩ := Path.isPlain_iff.mp hname
    have hidle : Path.isIdle name = false := by simp [Path.isIdle, hempty, hdot]
    cases tree with
    | file content => simp [seek, follow, Position.top, Except.map]
    | dir entries =>
      simp only [seek, follow, Position.top, hidle, hup, Bool.false_eq_true, ↓reduceIte,
        Position.enter?, FileTree.find?]
      cases (FileTree.dir entries).entries.lookup name with
      | none => simp [Except.map]
      | some next =>
        rw [← ih hrest, seek]
        exact Eq.congr (map_node_follow_congr hrest rfl) rfl

end Names

/-- A path that goes on below a directory is followed from there. -/
theorem followFrom_ofPlace_append (hplace : ∀ name ∈ place, Path.IsSegment name)
    (hnames : ∀ name ∈ names, Path.IsSegment name)
    (h : fs.followFrom (.ofPlace place) (Path.ofPlace place).segments = .ok here) :
    fs.followFrom (.ofPlace (place ++ names)) (Path.ofPlace (place ++ names)).segments =
      follow here names := by
  have hall : ∀ name ∈ place ++ names, Path.IsSegment name :=
    List.forall_mem_append.mpr ⟨hplace, hnames⟩
  by_cases hne : names = []
  · subst hne
    rw [List.append_nil]
    exact h
  · have hsegments : (Path.ofPlace (place ++ names)).segments = ("" :: place) ++ names := by
      simp [Path.segments_ofPlace hall, Path.tailSegments, hne]
    have htop : follow (.top fs.tree) ("" :: place) = .ok here := by
      rw [followFrom_of_isAbsolute (Path.isAbsolute_ofPlace place),
        Path.segments_ofPlace hplace] at h
      by_cases hroot : place = []
      · -- The root has one more empty segment when it stands alone.
        subst hroot
        rw [show "" :: Path.tailSegments [] = [""] ++ [""] from rfl, follow_append] at h
        cases hfirst : follow (.top fs.tree) [""] with
        | error e =>
          rw [hfirst] at h
          contradiction
        | ok first =>
          rw [hfirst] at h
          rw [eq_of_follow_trail (.inr rfl) h]
      · simpa [Path.tailSegments, hroot] using h
    rw [followFrom_of_isAbsolute (Path.isAbsolute_ofPlace _), hsegments, follow_append, htop]
    rfl

/-- **What a path below a directory leads to** is what the tree of the directory has
there. -/
theorem node?_ofPlace_append (hplace : ∀ name ∈ place, Path.isPlain name = true)
    (hnames : ∀ name ∈ names, Path.isPlain name = true)
    (hroot : fs.node? (.ofPlace place) = .ok tree) :
    fs.node? (.ofPlace (place ++ names)) =
      match refusal? (.ofPlace (place ++ names)) with
      | some e => .error e
      | none => seek tree names := by
  obtain ⟨-, here, hfollow, rfl⟩ := node?_eq_ok_iff.mp hroot
  rw [node?, position]
  cases refusal? (.ofPlace (place ++ names)) with
  | some e => rfl
  | none =>
    dsimp only
    rw [followFrom_ofPlace_append (fun s hs => Path.isSegment_of_isPlain (hplace s hs))
      (fun s hs => Path.isSegment_of_isPlain (hnames s hs)) hfollow]
    exact map_node_follow_congr hnames rfl

/-! ### The one spelling -/

/-- Following segments never leaves the tree: positions that are come to remember
nodes of it. -/
theorem within_of_follow {segments : List String} (hwithin : Position.Within tree here)
    (h : follow here segments = .ok there) : Position.Within tree there := by
  induction segments generalizing here with
  | nil =>
    rw [← Except.ok.inj h]
    exact hwithin
  | cons segment segments ih =>
    simp only [follow] at h
    split at h
    · contradiction
    · split at h
      · exact ih hwithin h
      · split at h
        · exact ih hwithin.up h
        · split at h
          next next hnext => exact ih (.enter hwithin hnext) h
          · contradiction

theorem misspelling?_eq_none_iff {p : Path} :
    misspelling? p = none ↔ p.text ≠ "" ∧ '\x00' ∉ p.text.toList := by
  unfold misspelling?
  split
  next hempty => simp [hempty]
  next hempty =>
    split
    next hnul => simp [hnul]
    next hnul => simp [hempty, hnul]

/-- A place of names without a NUL can be looked up by its path if they are not too
long. -/
theorem refusal?_ofPlace_eq_none_iff (hne : place ≠ [])
    (hplace : ∀ name ∈ place, '\x00' ∉ name.toList) :
    refusal? (.ofPlace place) = none ↔ Path.width place < 4096 := by
  have hnul : '\x00' ∉ (Path.ofPlace place).text.toList := by
    rw [Path.mem_text_ofPlace_iff (by decide)]
    rintro ⟨name, hname, hmem⟩
    exact hplace name hname hmem
  rw [refusal?_eq_none_iff, misspelling?_eq_none_iff, Path.size_text_ofPlace hne]
  simp [lengthFits, Path.text_ofPlace_ne, hnul]

/-- What stands at a place, by its path. -/
theorem node?_ofPlace_of_find? {entries : List (String × FileTree)} (htree : fs.tree = .dir entries)
    (hplace : ∀ name ∈ place, Path.isPlain name = true) (hfind : fs.tree.find? place = some node)
    (hfits : refusal? (.ofPlace place) = none) : fs.node? (.ofPlace place) = .ok node := by
  have hfollow : fs.followFrom (.ofPlace []) (Path.ofPlace []).segments = .ok (.top fs.tree) := by
    rw [followFrom_of_isAbsolute (Path.isAbsolute_ofPlace []), Path.segments_ofPlace (by simp),
      htree]
    rfl
  have htop : fs.node? (.ofPlace []) = .ok fs.tree :=
    node?_eq_ok_iff.mpr ⟨by decide, .top fs.tree, hfollow, rfl⟩
  have hunder : (Path.ofPlace []).under place = .ofPlace place :=
    Path.under_ofPlace (by simp) fun s hs => Path.isSegment_of_isPlain (hplace s hs)
  rw [← hunder] at hfits ⊢
  exact node?_under hplace htop hfind hfits

section Root

variable {p : Path} (habs : p.isAbsolute = true)
include habs

/-- The one spelling of a path is refused at most where the path is. -/
theorem refusal?_ofPlace_place (h : refusal? p = none) : refusal? (.ofPlace p.place) = none := by
  obtain ⟨hspelled, hfits⟩ := refusal?_eq_none_iff.mp h
  obtain ⟨-, hnul⟩ := misspelling?_eq_none_iff.mp hspelled
  by_cases hne : p.place = []
  · rw [hne]
    decide
  have hclear : ∀ name ∈ p.place, '\x00' ∉ name.toList := by
    intro name hname hmem
    rcases Path.mem_of_mem_placeFrom hname with h | h
    · contradiction
    · have htext : p.text = Path.dirText p.segments := (Text.intercalate_pieces '/' p.text).symm
      apply hnul
      rw [htext, Path.mem_dirText_iff (by decide)]
      exact ⟨name, h, hmem⟩
  rw [refusal?_ofPlace_eq_none_iff hne hclear]
  obtain ⟨rest, hsegments, -⟩ := Path.exists_segments_of_isAbsolute p.text habs
  have hplace : p.place = Path.placeFrom [] rest := by
    rw [Path.place, Path.segments, hsegments]
    rfl
  have hle := Path.width_placeFrom_le [] rest
  have hwidth := Path.width_segments p
  rw [Path.segments, hsegments, Path.width_cons] at hwidth
  have hempty : "".utf8ByteSize = 0 := rfl
  simp only [lengthFits, decide_eq_true_eq] at hfits
  simp only [Path.width_nil] at hle
  rw [hplace]
  omega

/-- **The one spelling of a path leads where the path leads.** The place has neither
idle segments nor steps up, and going down its names comes to the same node. -/
theorem node?_ofPlace_place (h : fs.node? p = .ok node) :
    fs.node? (.ofPlace p.place) = .ok node := by
  obtain ⟨hrefusal, here, hfollow, rfl⟩ := node?_eq_ok_iff.mp h
  have hplace := place_of_followFrom habs hfollow
  rw [followFrom_of_isAbsolute habs] at hfollow
  have hfind := (within_of_follow .top hfollow).find?_place
  rw [hplace] at hfind
  obtain ⟨entries, htree⟩ : ∃ entries, fs.tree = .dir entries := by
    obtain ⟨rest, hsegments, -⟩ := Path.exists_segments_of_isAbsolute p.text habs
    rw [Path.segments, hsegments] at hfollow
    cases htree : fs.tree with
    | file content => simp [follow, Position.top, htree] at hfollow
    | dir entries => exact ⟨entries, rfl⟩
  exact node?_ofPlace_of_find? htree (Path.isPlain_place p) hfind
    (refusal?_ofPlace_place habs hrefusal)

end Root

end SolutionTree.FileSystem
