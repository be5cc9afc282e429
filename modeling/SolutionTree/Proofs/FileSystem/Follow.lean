import SolutionTree.FileSystem
import SolutionTree.Proofs.Path.Child

/-!
Following a path that goes down from another.

Whatever a path leads to, its child leads to the entry of that name
(`followFrom_child`). So a path that goes down by several names leads to what the
tree has at their place (`node?_under`), unless it is refused for its text.
-/

namespace SolutionTree.FileSystem

open FileTree (Position)

variable {fs : FileSystem} {p : Path} {here next : Position} {name : String}
  {entries : List (String × FileTree)}

/-- Segments are followed from where the segments before them lead to. -/
theorem follow_append (here : Position) (front back : List String) :
    follow here (front ++ back) = (follow here front).bind fun next => follow next back := by
  induction front generalizing here with
  | nil => rfl
  | cons segment front ih =>
    simp only [List.cons_append, follow]
    cases here.node with
    | file content => rfl
    | dir entries =>
      by_cases hidle : Path.isIdle segment = true
      · simp only [hidle, ↓reduceIte]
        exact ih here
      · by_cases hup : segment = ".."
        · simp only [if_neg hidle, if_pos hup]
          exact ih here.up
        · simp only [hidle, hup, Bool.false_eq_true, ↓reduceIte]
          cases here.enter? segment with
          | none => rfl
          | some next => exact ih next

theorem follow_name (hdir : here.node = .dir entries) (h : Path.isPlain name = true)
    (hnext : here.enter? name = some next) : follow here [name] = .ok next := by
  obtain ⟨hempty, hdot, hdots, -⟩ := Path.isPlain_iff.mp h
  have hidle : Path.isIdle name = false := by simp [Path.isIdle, hempty, hdot]
  simp [follow, hdir, hidle, hdots, hnext]

/-- A slash at the end of a path asks for a directory and changes nothing else. -/
theorem eq_of_follow_trail {trail : List String} {there : Position}
    (htrail : trail = [] ∨ trail = [""]) (h : follow here trail = .ok there) : there = here := by
  rcases htrail with rfl | rfl
  · exact (Except.ok.inj h).symm
  · simp only [follow] at h
    cases hnode : here.node with
    | file content => simp [hnode] at h
    | dir entries =>
      simp only [hnode, Path.isIdle, beq_self_eq_true, Bool.true_or, ↓reduceIte] at h
      exact (Except.ok.inj h).symm

theorem startPlace_child (hp : p.text ≠ "") (h : Path.isPlain name = true) :
    fs.startPlace (p.child name) = fs.startPlace p := by
  rw [startPlace, startPlace, Path.isAbsolute_child hp (Path.slash_notMem_of_isPlain h)]

/-- The path of an entry is followed like that of its directory, and then one name
further. -/
theorem followFrom_child (hp : p.text ≠ "") (h : Path.isPlain name = true)
    (hfollow : fs.followFrom p p.segments = .ok here) (hdir : here.node = .dir entries)
    (hnext : here.enter? name = some next) :
    fs.followFrom (p.child name) (p.child name).segments = .ok next := by
  obtain ⟨first, rest, trail, hsegments, htrail, hchild⟩ :=
    Path.segments_child hp (Path.slash_notMem_of_isPlain h)
  rw [followFrom, hsegments] at hfollow
  rw [followFrom, startPlace_child hp h, hchild]
  cases hstart : (Position.top fs.tree).descend? (fs.startPlace p) with
  | none => simp [hstart] at hfollow
  | some start =>
    simp only [hstart, follow_append] at hfollow ⊢
    cases hfront : follow start (first :: rest) with
    | error e =>
      rw [hfront] at hfollow
      contradiction
    | ok there =>
      rw [hfront] at hfollow
      obtain rfl : here = there := eq_of_follow_trail htrail hfollow
      exact follow_name hdir h hnext

/-- Plain names below a path lead to the node that they find in the tree there. -/
theorem followFrom_under {names : List String} {node : FileTree} (hp : p.text ≠ "")
    (h : ∀ name ∈ names, Path.isPlain name = true)
    (hfollow : fs.followFrom p p.segments = .ok here) (hfind : here.node.find? names = some node) :
    ∃ there, fs.followFrom (p.under names) (p.under names).segments = .ok there ∧
      there.node = node := by
  induction names generalizing p here with
  | nil =>
    rw [FileTree.find?_nil, Option.some.injEq] at hfind
    exact ⟨here, hfollow, hfind⟩
  | cons name names ih =>
    have ⟨hname, hnames⟩ := List.forall_mem_cons.mp h
    cases hdir : here.node with
    | file content => simp [hdir] at hfind
    | dir entries =>
      cases hlookup : here.node.entries.lookup name with
      | none => simp [FileTree.find?, hlookup] at hfind
      | some inner =>
        have henter : here.enter? name = some ⟨inner, (name, here.node) :: here.above⟩ := by
          simp [Position.enter?, hlookup]
        have hinner : inner.find? names = some node := by
          simpa [FileTree.find?, hlookup] using hfind
        exact ih (Path.text_child_ne hp (Path.slash_notMem_of_isPlain hname)) hnames
          (followFrom_child hp hname hfollow hdir henter) hinner

theorem text_ne_of_refusal? (h : refusal? p = none) : p.text ≠ "" := by
  intro hempty
  simp [refusal?, misspelling?, hempty] at h

/-- A path leads to a node when it is not refused for its spelling and its segments
can be followed. -/
theorem node?_eq_ok_iff {node : FileTree} :
    fs.node? p = .ok node ↔
      refusal? p = none ∧ ∃ here, fs.followFrom p p.segments = .ok here ∧ here.node = node := by
  rw [node?, position]
  cases refusal? p with
  | some e => simp [Except.map]
  | none =>
    cases fs.followFrom p p.segments with
    | error e => simp [Except.map]
    | ok here => simp [Except.map]

/-- **A path that goes down by names leads to what the tree has at their place.**
Beyond that only the length of its spelling counts. -/
theorem node?_under {names : List String} {tree node : FileTree}
    (h : ∀ name ∈ names, Path.isPlain name = true) (htree : fs.node? p = .ok tree)
    (hfind : tree.find? names = some node) (hfits : refusal? (p.under names) = none) :
    fs.node? (p.under names) = .ok node := by
  obtain ⟨hrefusal, here, hfollow, rfl⟩ := node?_eq_ok_iff.mp htree
  exact node?_eq_ok_iff.mpr
    ⟨hfits, followFrom_under (text_ne_of_refusal? hrefusal) h hfollow hfind⟩

/-! ### Files -/

theorem readText_congr {fs' : FileSystem} {q : Path} (h : fs.node? p = fs'.node? q) :
    fs.readText p = fs'.readText q := by
  rw [readText, readText, readBytes, readBytes, h]

/-- A directory is no text. -/
theorem readText_of_node?_dir (h : fs.node? p = .ok (.dir entries)) :
    fs.readText p = .error .isDirectory := by
  rw [readText, readBytes, h]

end SolutionTree.FileSystem
