import SolutionTree.Proofs.FileSystem.Below

/-!
What a path that goes down by names leads to, also where it leads nowhere.

Below any path that is found, a path that goes down by plain names is refused for
its text, or leads to what `seek` finds in the tree that the first one leads to, or
fails as `seek` does (`node?_under_eq`). So two file systems that have the same
below a directory are read alike there, and `seek` goes on from wherever it has come
to (`seek_append`).
-/

namespace SolutionTree

open FileTree (Position)

/-! ### Segments -/

namespace Path

variable {p : Path} {names : List String}

theorem isAbsolute_under (hp : p.text ≠ "") (h : ∀ name ∈ names, isPlain name = true) :
    (p.under names).isAbsolute = p.isAbsolute := by
  induction names generalizing p with
  | nil => rfl
  | cons name names ih =>
    obtain ⟨hname, hnames⟩ := List.forall_mem_cons.mp h
    have hslash := slash_notMem_of_isPlain hname
    rw [under_cons, ih (text_child_ne hp hslash) hnames, isAbsolute_child hp hslash]

/-- A path that goes down by names has these behind the segments of the path that it
starts from, whatever slash there is at the end of that. -/
theorem segments_under (hp : p.text ≠ "") (h : ∀ name ∈ names, isPlain name = true) :
    ∃ front trail, p.segments = front ++ trail ∧ (trail = [] ∨ trail = [""]) ∧
      (names ≠ [] → (p.under names).segments = front ++ names) := by
  induction names using List.reverseRecOn with
  | nil => exact ⟨p.segments, [], by simp, .inl rfl, fun hne => absurd rfl hne⟩
  | append_singleton names name ih =>
    obtain ⟨hnames, hname⟩ := List.forall_mem_append.mp h
    have hname : isPlain name = true := hname name (by simp)
    have hchild : p.under (names ++ [name]) = (p.under names).child name := under_append p _ _
    obtain ⟨first, rest, trail, hsegments, htrail, hlast⟩ :=
      segments_child (text_under_ne hp hnames) (slash_notMem_of_isPlain hname)
    by_cases hne : names = []
    · subst hne
      exact ⟨first :: rest, trail, hsegments, htrail, fun _ => hlast⟩
    · obtain ⟨front, slash, hfront, hslash, hbelow⟩ := ih hnames
      refine ⟨front, slash, hfront, hslash, fun _ => ?_⟩
      -- The last name is not empty, so no slash stands behind it.
      obtain rfl : trail = [] := by
        refine htrail.resolve_right ?_
        rintro rfl
        have hend := (hbelow hne).symm.trans hsegments
        have hlast? := congrArg List.getLast? hend
        rw [List.getLast?_append_of_ne_nil _ hne, List.getLast?_concat] at hlast?
        exact ne_empty_of_isPlain (hnames _ (List.mem_of_getLast? hlast?)) rfl
      rw [List.append_nil] at hsegments
      rw [hchild, hlast, ← hsegments, hbelow hne, List.append_assoc]

end Path

/-! ### Nodes -/

namespace FileSystem

variable {fs : FileSystem} {p : Path} {here : Position} {tree node : FileTree}
  {names : List String}

/-- A path that goes down by names is followed from where it starts to go down. -/
theorem followFrom_under_eq (hp : p.text ≠ "") (h : ∀ name ∈ names, Path.isPlain name = true)
    (hfollow : fs.followFrom p p.segments = .ok here) :
    fs.followFrom (p.under names) (p.under names).segments = follow here names := by
  by_cases hne : names = []
  · subst hne
    exact hfollow
  · obtain ⟨front, trail, hsegments, htrail, hbelow⟩ := Path.segments_under hp h
    rw [followFrom, hsegments] at hfollow
    rw [followFrom, startPlace, Path.isAbsolute_under hp h, hbelow hne, ← startPlace]
    cases hstart : (Position.top fs.tree).descend? (fs.startPlace p) with
    | none => simp [hstart] at hfollow
    | some start =>
      simp only [hstart, follow_append] at hfollow ⊢
      cases hfront : follow start front with
      | error e =>
        rw [hfront] at hfollow
        contradiction
      | ok there =>
        rw [hfront] at hfollow
        obtain rfl : here = there := eq_of_follow_trail htrail hfollow
        rfl

/-- **What a path that goes down by names leads to** is told by the tree that it
goes down in. -/
theorem node?_under_eq (h : ∀ name ∈ names, Path.isPlain name = true)
    (htree : fs.node? p = .ok tree) :
    fs.node? (p.under names) =
      match refusal? (p.under names) with
      | some e => .error e
      | none => seek tree names := by
  obtain ⟨hrefusal, here, hfollow, rfl⟩ := node?_eq_ok_iff.mp htree
  rw [node?, position]
  cases refusal? (p.under names) with
  | some e => rfl
  | none =>
    dsimp only
    rw [followFrom_under_eq (text_ne_of_refusal? hrefusal) h hfollow]
    exact map_node_follow_congr h rfl

/-- Names behind others are sought in what the others lead to. -/
theorem seek_append {front back : List String} (hback : ∀ name ∈ back, Path.isPlain name = true) :
    seek tree (front ++ back) = (seek tree front).bind (seek · back) := by
  rw [seek, seek, follow_append]
  cases follow (.top tree) front with
  | error e => rfl
  | ok there => exact map_node_follow_congr hback rfl

/-! ### Files -/

/-- A name that a directory does not have is missing, or too long to be there. -/
theorem seek_concat_of_find?_none {entries : List (String × FileTree)} {name : String}
    (hnames : ∀ name ∈ names, Path.isPlain name = true) (hname : Path.isPlain name = true)
    (hdir : tree.find? names = some (.dir entries)) (hnone : tree.find? (names ++ [name]) = none) :
    seek tree (names ++ [name]) = .error (if nameFits name then .notFound else .nameTooLong) := by
  obtain ⟨hempty, hdot, hup, -⟩ := Path.isPlain_iff.mp hname
  have hidle : Path.isIdle name = false := by simp [Path.isIdle, hempty, hdot]
  have hlookup : (FileTree.dir entries).entries.lookup name = none := by
    rw [FileTree.find?_append, hdir, Option.bind_some, FileTree.find?] at hnone
    cases hlookup : (FileTree.dir entries).entries.lookup name with
    | none => rfl
    | some node => simp [hlookup] at hnone
  rw [seek_append (by simpa using hname), (seek_eq_ok_iff hnames).mpr hdir]
  show seek (.dir entries) [name] = _
  rw [seek, follow]
  simp [Position.top, hidle, hup, Position.enter?, hlookup, Except.map]

/-- What a node is to a reader of texts: the bytes of a file, and nothing that can
be read in a directory. -/
def content? : FileTree → Option ByteArray
  | .file content => some content
  | .dir _ => none

/-- **A text below a directory is read alike** where two file systems have the same
file, or each a directory, or each nothing. -/
theorem readText_under_congr {fs' : FileSystem} {tree' : FileTree} {name : String}
    {entries entries' : List (String × FileTree)}
    (hnames : ∀ name ∈ names, Path.isPlain name = true) (hname : Path.isPlain name = true)
    (hnode : fs.node? p = .ok tree) (hnode' : fs'.node? p = .ok tree')
    (hdir : tree.find? names = some (.dir entries))
    (hdir' : tree'.find? names = some (.dir entries'))
    (halike : (tree.find? (names ++ [name])).map content? =
      (tree'.find? (names ++ [name])).map content?) :
    fs.readText (p.under (names ++ [name])) = fs'.readText (p.under (names ++ [name])) := by
  have hall : ∀ segment ∈ names ++ [name], Path.isPlain segment = true :=
    List.forall_mem_append.mpr ⟨hnames, by simpa using hname⟩
  have hfound := node?_under_eq hall hnode
  have hfound' := node?_under_eq hall hnode'
  cases hrefusal : refusal? (p.under (names ++ [name])) with
  | some e =>
    rw [hrefusal] at hfound hfound'
    exact readText_congr (hfound.trans hfound'.symm)
  | none =>
    rw [hrefusal] at hfound hfound'
    dsimp only at hfound hfound'
    cases hfind : tree.find? (names ++ [name]) with
    | none =>
      have hfind' : tree'.find? (names ++ [name]) = none := by
        simpa [hfind] using halike.symm
      rw [seek_concat_of_find?_none hnames hname hdir hfind] at hfound
      rw [seek_concat_of_find?_none hnames hname hdir' hfind'] at hfound'
      exact readText_congr (hfound.trans hfound'.symm)
    | some node =>
      obtain ⟨node', hfind', hcontent⟩ : ∃ node', tree'.find? (names ++ [name]) = some node' ∧
          content? node' = content? node := by
        simpa [hfind] using halike.symm
      rw [(seek_eq_ok_iff hall).mpr hfind] at hfound
      rw [(seek_eq_ok_iff hall).mpr hfind'] at hfound'
      cases node with
      | file content =>
        cases node' with
        | file content' =>
          obtain rfl := Option.some.inj hcontent
          exact readText_congr (hfound.trans hfound'.symm)
        | dir entries => contradiction
      | dir entries =>
        cases node' with
        | file content' => contradiction
        | dir entries' => rw [readText_of_node?_dir hfound, readText_of_node?_dir hfound']

end FileSystem

end SolutionTree
