import SolutionTree.Listing
import SolutionTree.Proofs.FileSystem.Follow
import SolutionTree.Proofs.FileTree.WellFormed

/-!
Which files are sources, and which directories hold one.

`IsSourceName` says of a name, without looking at a path, that it has an extension
of a source. `Extensions.kindOf` finds just these names
(`kindOf_child_eq_source_iff`), so a directory has sources when one of its files has
such a name (`Listing.hasSources_iff`).
-/

namespace SolutionTree

variable {p : Path} {name extension : String} {extensions : Extensions}

/-- The extension stands behind the last dot, and something has to stand before it:
a name that starts with its only dot has none. -/
theorem Path.extension?_eq_some_iff (hname : p.fileName? = some name) :
    p.extension? = some extension ↔
      ∃ stem, name = stem ++ "." ++ extension ∧ stem ≠ "" ∧ '.' ∉ extension.toList := by
  rw [extension?, hname, Option.bind_eq_bind, Option.bind_some]
  constructor
  · intro h
    by_cases hdot : '.' ∈ name.toList
    · obtain ⟨before, after, heq, hnot⟩ := Text.exists_last_split hdot
      rw [heq, Text.beforeLast?_append hnot, Text.afterLast_append hnot] at h
      cases before with
      | nil => contradiction
      | cons c before =>
        obtain rfl : String.ofList after = extension := Option.some.inj h
        refine ⟨String.ofList (c :: before), ?_, by simp, by simpa using hnot⟩
        apply String.toList_inj.mp
        simp [heq]
    · rw [Text.beforeLast?_of_notMem hdot] at h
      contradiction
  · rintro ⟨stem, rfl, hstem, hdot⟩
    have hcs : (stem ++ "." ++ extension).toList = stem.toList ++ '.' :: extension.toList := by
      simp
    rw [hcs, Text.beforeLast?_append hdot, Text.afterLast_append hdot, String.ofList_toList]
    cases hstem' : stem.toList with
    | nil => exact absurd (String.toList_eq_nil_iff.mp hstem') hstem
    | cons c cs => rfl

theorem Path.stem?_eq_some {stem : String} (hname : p.fileName? = some (stem ++ "." ++ extension))
    (hstem : stem ≠ "") (hdot : '.' ∉ extension.toList) : p.stem? = some stem := by
  have hcs : (stem ++ "." ++ extension).toList = stem.toList ++ '.' :: extension.toList := by
    simp
  rw [stem?, hname, Option.bind_eq_bind, Option.bind_some, hcs, Text.beforeLast?_append hdot]
  split
  next heq => contradiction
  next heq => exact absurd (String.toList_eq_nil_iff.mp (Option.some.inj heq)) hstem
  next heq =>
    rw [← Option.some.inj heq, String.ofList_toList]

namespace Extensions

/-- The name of a source: something, a dot, and an extension without dots that is
listed for sources when ASCII case does not count. -/
def IsSourceName (extensions : Extensions) (name : String) : Prop :=
  ∃ stem extension, name = stem ++ "." ++ extension ∧ stem ≠ "" ∧ '.' ∉ extension.toList ∧
    ∃ listed ∈ extensions.sources, folded listed = folded extension

/-- An extension is listed when it is one of the list up to the case of ASCII
letters. -/
theorem lists_iff {listed : List String} :
    lists listed extension = true ↔ ∃ e ∈ listed, folded e = folded extension := by
  simp [lists]

theorem kindOf_eq_source_iff :
    extensions.kindOf p = .source ↔ ∃ extension, p.extension? = some extension ∧
      lists extensions.sources extension = true := by
  rw [kindOf]
  cases p.extension? with
  | none => simp
  | some extension =>
    by_cases hsource : lists extensions.sources extension = true
    · simp [hsource]
    · by_cases hheader : lists extensions.headers extension = true
      · simp [hsource, hheader]
      · simp [hsource, hheader]

/-- Whether a file of a directory is a source is a matter of its name alone. -/
theorem kindOf_child_eq_source_iff (hp : p.text ≠ "") (h : Path.isPlain name = true) :
    extensions.kindOf (p.child name) = .source ↔ extensions.IsSourceName name := by
  rw [kindOf_eq_source_iff]
  simp only [Path.extension?_eq_some_iff (Path.fileName?_child hp h), lists_iff]
  constructor
  · rintro ⟨extension, ⟨stem, heq, hstem, hdot⟩, hlisted⟩
    exact ⟨stem, extension, heq, hstem, hdot, hlisted⟩
  · rintro ⟨stem, extension, heq, hstem, hdot, hlisted⟩
    exact ⟨extension, ⟨stem, heq, hstem, hdot⟩, hlisted⟩

end Extensions

namespace Listing

variable {entries : List (String × FileTree)} {kind : FileKind} {fs : FileSystem}
  {files : Listing}

/-- The names of one kind are those of files. -/
theorem mem_namesOf_iff : name ∈ namesOf extensions p kind entries ↔
    (∃ content, (name, FileTree.file content) ∈ entries) ∧
      extensions.kindOf (p.child name) = kind := by
  simp only [namesOf, List.mem_mergeSort, List.mem_map, List.mem_filter, Bool.and_eq_true,
    beq_iff_eq]
  constructor
  · rintro ⟨⟨_, node⟩, ⟨hentry, hfile, hkind⟩, rfl⟩
    cases node with
    | file content => exact ⟨⟨content, hentry⟩, hkind⟩
    | dir inner => contradiction
  · rintro ⟨⟨content, hentry⟩, hkind⟩
    exact ⟨_, ⟨hentry, rfl, hkind⟩, rfl⟩

/-- Entries that come by name are listed as they come. -/
theorem namesOf_of_sorted (h : (entries.map Prod.fst).Pairwise (· ≤ ·)) :
    namesOf extensions p kind entries = (entries.filter fun entry =>
      entry.2.isFile && extensions.kindOf (p.child entry.1) == kind).map Prod.fst := by
  rw [namesOf]
  apply List.mergeSort_of_pairwise
  exact (h.sublist (List.filter_sublist.map Prod.fst)).imp decide_eq_true

/-- What a listing calls sources has the name of one, however the extensions are
spelled in the settings. -/
theorem isSourceName_of_mem_sources (hp : p.text ≠ "")
    (hplain : ∀ entry ∈ entries, Path.isPlain entry.1 = true)
    (h : name ∈ (ofEntries extensions p entries).sources) :
    Path.isPlain name = true ∧ extensions.IsSourceName name := by
  obtain ⟨⟨content, hmem⟩, hkind⟩ := mem_namesOf_iff.mp h
  have hname : Path.isPlain name = true := hplain _ hmem
  exact ⟨hname, (Extensions.kindOf_child_eq_source_iff hp hname).mp hkind⟩

/-- **A directory of a tree has sources** when one of the files in it has the name
of a source. -/
theorem hasSources_iff {tree : FileTree} {names : List String} (hp : p.text ≠ "")
    (hwf : tree.WellFormed) (hfind : tree.find? names = some (.dir entries)) :
    (ofEntries extensions p entries).hasSources = true ↔
      ∃ name content, tree.find? (names ++ [name]) = some (.file content) ∧
        extensions.IsSourceName name := by
  have hplain := (hwf.of_find? hfind).isPlain_of_mem
  rw [hasSources, Bool.not_eq_true', List.isEmpty_eq_false_iff_exists_mem]
  constructor
  · rintro ⟨name, hname⟩
    obtain ⟨⟨content, hmem⟩, hkind⟩ := mem_namesOf_iff.mp hname
    exact ⟨name, content, (hwf.find?_concat_iff hfind).mpr hmem,
      (Extensions.kindOf_child_eq_source_iff hp (hplain _ hmem)).mp hkind⟩
  · rintro ⟨name, content, hfile, hname⟩
    have hmem := (hwf.find?_concat_iff hfind).mp hfile
    exact ⟨name, mem_namesOf_iff.mpr ⟨⟨content, hmem⟩,
      (Extensions.kindOf_child_eq_source_iff hp (hplain _ hmem)).mpr hname⟩⟩

theorem read_of_node? (h : fs.node? p = .ok (.dir entries)) :
    read fs extensions p = .ok (ofEntries extensions p entries) := by
  rw [read, FileSystem.readDir, h]
  rfl

theorem path_of_read {files : Listing} (h : read fs extensions p = .ok files) : files.path = p := by
  rw [read] at h
  cases hdir : fs.readDir p with
  | error e =>
    rw [hdir] at h
    contradiction
  | ok entries =>
    rw [hdir] at h
    rw [← Except.ok.inj h]
    rfl

end Listing

end SolutionTree
