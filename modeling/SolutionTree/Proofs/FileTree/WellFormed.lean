import SolutionTree.FileTree
import SolutionTree.Path.Lexical
import SolutionTree.Proofs.Association

/-!
Well-formed file trees.

A file system gives the entries of a directory different names, each of them one
step down. In such a tree a name looks up exactly the entry that has it
(`WellFormed.find?_cons_iff`), and what is found at a place is well-formed again and
lies at plain names.
-/

namespace SolutionTree.FileTree

/-- A tree as file systems have them: entries of one directory have different names,
and no name is empty, a dot, two dots or has a slash in it. -/
inductive WellFormed : FileTree → Prop where
  | file (content : ByteArray) : WellFormed (.file content)
  | dir {entries : List (String × FileTree)} :
      (entries.map Prod.fst).Nodup → (∀ entry ∈ entries, Path.isPlain entry.1 = true) →
      (∀ entry ∈ entries, WellFormed entry.2) → WellFormed (.dir entries)

/-- What names lead through is a directory. -/
theorem exists_dir_of_find?_append {tree node : FileTree} {names rest : List String}
    (hne : rest ≠ []) (h : tree.find? (names ++ rest) = some node) :
    ∃ entries, tree.find? names = some (.dir entries) := by
  obtain ⟨name, rest, rfl⟩ := List.exists_cons_of_ne_nil hne
  rw [find?_append] at h
  cases hnames : tree.find? names with
  | none => simp [hnames] at h
  | some holder =>
    cases holder with
    | file content => simp [hnames] at h
    | dir entries => exact ⟨entries, rfl⟩

theorem exists_dir_of_find?_concat {tree node : FileTree} {names : List String} {name : String}
    (h : tree.find? (names ++ [name]) = some node) :
    ∃ entries, tree.find? names = some (.dir entries) :=
  exists_dir_of_find?_append (List.cons_ne_nil name []) h

theorem exists_dir_dropLast {tree node : FileTree} {names : List String} (hne : names ≠ [])
    (h : tree.find? names = some node) :
    ∃ entries, tree.find? names.dropLast = some (.dir entries) := by
  rw [← List.dropLast_append_getLast hne] at h
  exact exists_dir_of_find?_concat h

namespace WellFormed

variable {tree node : FileTree} {entries : List (String × FileTree)} {name : String}
  {names : List String}

/-- In a well-formed directory a name finds the entry that has it, and there is no
more than one. -/
theorem find?_cons_iff (h : WellFormed (.dir entries)) :
    (FileTree.dir entries).find? (name :: names) = some node ↔
      ∃ next, (name, next) ∈ entries ∧ next.find? names = some node := by
  cases h with
  | dir hnodup hplain hentries =>
    constructor
    · intro hfind
      cases hlookup : entries.lookup name with
      | none => simp [find?, FileTree.entries, hlookup] at hfind
      | some next =>
        refine ⟨next, (Association.lookup_eq_some_iff_mem hnodup).mp hlookup, ?_⟩
        simpa [find?, FileTree.entries, hlookup] using hfind
    · rintro ⟨next, hmem, hfind⟩
      have hlookup := (Association.lookup_eq_some_iff_mem hnodup).mpr hmem
      simpa [find?, FileTree.entries, hlookup] using hfind

/-- What stands in a well-formed tree is well-formed. -/
theorem of_find? (h : tree.WellFormed) (hfind : tree.find? names = some node) :
    node.WellFormed := by
  induction names generalizing tree with
  | nil =>
    rw [find?_nil, Option.some.injEq] at hfind
    exact hfind ▸ h
  | cons name names ih =>
    cases tree with
    | file content => simp at hfind
    | dir entries =>
      obtain ⟨next, hmem, hnext⟩ := h.find?_cons_iff.mp hfind
      cases h with
      | dir hnodup hplain hentries => exact ih (hentries _ hmem) hnext

theorem nodup (h : WellFormed (.dir entries)) : (entries.map Prod.fst).Nodup := by
  cases h with
  | dir hnodup hplain hentries => exact hnodup

/-- What is right below a directory of a tree is one of its entries. -/
theorem find?_concat_iff (h : tree.WellFormed) (hfind : tree.find? names = some (.dir entries)) :
    tree.find? (names ++ [name]) = some node ↔ (name, node) ∈ entries := by
  rw [find?_append, hfind, Option.bind_some, (h.of_find? hfind).find?_cons_iff]
  simp

theorem isPlain_of_mem (h : WellFormed (.dir entries)) :
    ∀ entry ∈ entries, Path.isPlain entry.1 = true := by
  cases h with
  | dir hnodup hplain hentries => exact hplain

/-- Names that lead somewhere are plain. -/
theorem isPlain_of_find? (h : tree.WellFormed) (hfind : tree.find? names = some node) :
    ∀ name ∈ names, Path.isPlain name = true := by
  induction names generalizing tree with
  | nil => simp
  | cons name names ih =>
    cases tree with
    | file content => simp at hfind
    | dir entries =>
      obtain ⟨next, hmem, hnext⟩ := h.find?_cons_iff.mp hfind
      cases h with
      | dir hnodup hplain hentries =>
        exact List.forall_mem_cons.mpr ⟨hplain _ hmem, ih (hentries _ hmem) hnext⟩

end WellFormed

theorem find?_file_iff {content : ByteArray} :
    (file content).find? names = some node ↔ names = [] ∧ node = .file content := by
  cases names with
  | nil => simp [eq_comm]
  | cons name names => simp

/-! ### Trees of one way down -/

/-- A tree below directories that hold nothing else. -/
def nest : List String → FileTree → FileTree
  | [], node => node
  | name :: names, node => .dir [(name, nest names node)]

section Nest

variable {node found : FileTree} {place names : List String}

theorem find?_singleton_cons (name first : String) (names : List String) (node : FileTree) :
    (FileTree.dir [(first, node)]).find? (name :: names) =
      if name = first then node.find? names else none := by
  by_cases h : name = first
  · simp [find?, entries, h]
  · simp [find?, entries, List.lookup_cons, beq_false_of_ne h, h]

theorem wellFormed_nest (hplace : ∀ name ∈ place, Path.isPlain name = true)
    (hnode : node.WellFormed) : (nest place node).WellFormed := by
  induction place with
  | nil => exact hnode
  | cons name place ih =>
    have ⟨hname, hrest⟩ := List.forall_mem_cons.mp hplace
    refine .dir (List.nodup_singleton name) ?_ ?_
    · simpa using hname
    · simpa using ih hrest

theorem nest_append (place names : List String) (node : FileTree) :
    nest (place ++ names) node = nest place (nest names node) := by
  induction place with
  | nil => rfl
  | cons name place ih => rw [List.cons_append, nest, ih, nest]

/-- What is put below a way down is found at its end. -/
theorem find?_nest_append (place names : List String) (node : FileTree) :
    (nest (place ++ names) node).find? place = some (nest names node) := by
  induction place with
  | nil => exact find?_nil _
  | cons name place ih => rw [List.cons_append, nest, find?_singleton_cons, if_pos rfl, ih]

/-- What is found on the way to a file that stands alone leads to it. -/
theorem exists_of_find?_nest_file {content : ByteArray}
    (h : (nest place (.file content)).find? names = some found) :
    ∃ rest, place = names ++ rest ∧ found = nest rest (.file content) := by
  induction names generalizing place with
  | nil =>
    rw [find?_nil] at h
    exact ⟨place, rfl, (Option.some.inj h).symm⟩
  | cons name names ih =>
    cases place with
    | nil => simp [nest] at h
    | cons first place =>
      rw [nest, find?_singleton_cons] at h
      split at h
      next hname =>
        obtain ⟨rest, rfl, hfound⟩ := ih h
        exact ⟨rest, by rw [hname, List.cons_append], hfound⟩
      · contradiction

end Nest

end SolutionTree.FileTree
