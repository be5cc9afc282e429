import Mathlib.Data.String.Basic
import SolutionTree.Proofs.Scan.Walk
import SolutionTree.Proofs.Sorting

/-!
Trees without some of their directories.

`prune` takes directories away with everything below them, by the names that lead to
them from the top; files stay, and so does the top. What is left stands where it
stood (`find?_prune_iff`), and walking the pruned tree as a whole comes to the
directories that a walk of the tree itself keeps (`walk_prune`).
-/

namespace SolutionTree

namespace FileTree

/-! ### Removing directories -/

mutual

/-- A tree without the directories below its top that are removed, and all that is
in them. -/
def prune (removed : List String → Bool) : FileTree → FileTree
  | .file content => .file content
  | .dir entries => .dir (pruneEntries removed entries)

/-- The entries of a directory without the directories that are removed. -/
def pruneEntries (removed : List String → Bool) :
    List (String × FileTree) → List (String × FileTree)
  | [] => []
  | (name, node) :: rest =>
    if node.isDir && removed [name] then pruneEntries removed rest
    else (name, node.prune fun below => removed (name :: below)) :: pruneEntries removed rest

end

variable {removed : List String → Bool} {tree node : FileTree}
  {entries : List (String × FileTree)} {name : String} {names : List String}

/-- Whether an entry is left in its directory. -/
def staysIn (removed : List String → Bool) (entry : String × FileTree) : Bool :=
  !(entry.2.isDir && removed [entry.1])

theorem pruneEntries_eq_map (removed : List String → Bool) (entries : List (String × FileTree)) :
    pruneEntries removed entries = (entries.filter (staysIn removed)).map fun entry =>
      (entry.1, entry.2.prune fun below => removed (entry.1 :: below)) := by
  induction entries with
  | nil => rfl
  | cons entry entries ih =>
    cases hstays : entry.2.isDir && removed [entry.1] with
    | true =>
      rw [pruneEntries, if_pos hstays, ih, List.filter_cons_of_neg (by simp [staysIn, hstays])]
    | false =>
      rw [pruneEntries, if_neg (by simp [hstays]), ih,
        List.filter_cons_of_pos (by simp [staysIn, hstays]), List.map_cons]

@[simp] theorem isDir_prune (removed : List String → Bool) (tree : FileTree) :
    (tree.prune removed).isDir = tree.isDir := by
  cases tree <;> rfl

/-- An entry is left unless it is a directory that is removed, and what is left of
it is pruned below its name. -/
theorem mem_pruneEntries_iff {node' : FileTree} :
    (name, node') ∈ pruneEntries removed entries ↔
      ∃ node, (name, node) ∈ entries ∧ (node.isDir = true → removed [name] = false) ∧
        node' = node.prune fun below => removed (name :: below) := by
  rw [pruneEntries_eq_map]
  simp only [List.mem_map, List.mem_filter, staysIn, Bool.not_eq_true', Bool.and_eq_false_iff,
    Prod.mk.injEq]
  constructor
  · rintro ⟨⟨_, node⟩, ⟨hmem, hstays⟩, rfl, rfl⟩
    exact ⟨node, hmem, fun hdir => hstays.resolve_left (by simp [hdir]), rfl⟩
  · rintro ⟨node, hmem, hstays, rfl⟩
    refine ⟨(name, node), ⟨hmem, ?_⟩, rfl, rfl⟩
    cases hdir : node.isDir with
    | true => exact .inr (hstays hdir)
    | false => exact .inl rfl

/-- The files of a directory are all left in it. -/
theorem filter_pruneEntries (removed : List String → Bool) (keep : String → Bool)
    (entries : List (String × FileTree)) :
    ((pruneEntries removed entries).filter fun entry => entry.2.isFile && keep entry.1).map Prod.fst =
      (entries.filter fun entry => entry.2.isFile && keep entry.1).map Prod.fst := by
  have hfile : ∀ node : FileTree, node.isFile = !node.isDir := by
    intro node
    cases node <;> rfl
  rw [pruneEntries_eq_map, List.filter_map, List.map_map, List.filter_filter]
  have hfilter : (entries.filter fun entry =>
        (((fun entry : String × FileTree => entry.2.isFile && keep entry.1) ∘ fun entry =>
          (entry.1, entry.2.prune fun below => removed (entry.1 :: below))) entry) &&
          staysIn removed entry) =
      entries.filter fun entry => entry.2.isFile && keep entry.1 := by
    apply List.filter_congr
    rintro ⟨name, node⟩ -
    cases hdir : node.isDir with
    | true => simp [hfile, hdir]
    | false => simp [hfile, hdir, staysIn]
  rw [hfilter]
  rfl

/-! ### What is left -/

/-- Taking directories away leaves names different and plain. -/
theorem WellFormed.prune (h : tree.WellFormed) (removed : List String → Bool) :
    (tree.prune removed).WellFormed := by
  induction h generalizing removed with
  | file content => exact .file content
  | @dir entries hnodup hplain hentries ih =>
    have hfirst : (pruneEntries removed entries).map Prod.fst =
        (entries.filter (staysIn removed)).map Prod.fst := by
      rw [pruneEntries_eq_map, List.map_map]
      rfl
    refine .dir ?_ ?_ ?_
    · rw [hfirst]
      exact hnodup.sublist (List.filter_sublist.map _)
    · rintro ⟨name, node'⟩ hmem
      obtain ⟨node, hnode, -, -⟩ := mem_pruneEntries_iff.mp hmem
      exact hplain (name, node) hnode
    · rintro ⟨name, node'⟩ hmem
      obtain ⟨node, hnode, -, rfl⟩ := mem_pruneEntries_iff.mp hmem
      exact ih _ hnode _

/-- Whether a place is left: none of the directories on the way to it, itself
included, is removed. -/
def Left (removed : List String → Bool) (tree : FileTree) (names : List String) : Prop :=
  ∀ above, above ≠ [] → above <+: names → (∃ entries, tree.find? above = some (.dir entries)) →
    removed above = false

/-- A place below an entry is left when the entry is, and when the rest is left as
seen from there. -/
theorem left_cons_iff {next : FileTree} (h : (FileTree.dir entries).WellFormed)
    (hnext : (name, next) ∈ entries) :
    Left removed (.dir entries) (name :: names) ↔
      (next.isDir = true → removed [name] = false) ∧
        Left (fun below => removed (name :: below)) next names := by
  have hfind : ∀ below, (FileTree.dir entries).find? (name :: below) = next.find? below := by
    intro below
    apply Option.ext
    intro node
    rw [h.find?_cons_iff]
    constructor
    · rintro ⟨other, hother, hbelow⟩
      cases h with
      | dir hnodup hplain hentries =>
        obtain rfl : other = next := congrArg Prod.snd
          (List.inj_on_of_nodup_map hnodup hother hnext rfl)
        exact hbelow
    · intro hbelow
      exact ⟨next, hnext, hbelow⟩
  constructor
  · intro hleft
    constructor
    · intro hdir
      apply hleft [name] (by simp) (List.cons_prefix_cons.mpr ⟨rfl, List.nil_prefix⟩)
      cases next with
      | file content => contradiction
      | dir inner => exact ⟨inner, by rw [hfind, find?_nil]⟩
    · rintro above - hpre ⟨inner, habove⟩
      exact hleft (name :: above) (by simp) (List.cons_prefix_cons.mpr ⟨rfl, hpre⟩)
        ⟨inner, by rw [hfind, habove]⟩
  · rintro ⟨hname, hleft⟩ above hne hpre ⟨inner, habove⟩
    cases above with
    | nil => exact absurd rfl hne
    | cons first above =>
      obtain ⟨rfl, hrest⟩ := List.cons_prefix_cons.mp hpre
      rw [hfind] at habove
      by_cases hempty : above = []
      · subst hempty
        rw [find?_nil, Option.some.injEq] at habove
        exact hname (by rw [habove]; rfl)
      · exact hleft above hempty hrest ⟨inner, habove⟩

/-- **What a pruned tree has at a place** is what the tree has there, pruned itself,
if no directory on the way is removed, and nothing otherwise. -/
theorem find?_prune_iff {node' : FileTree} (h : tree.WellFormed) :
    (tree.prune removed).find? names = some node' ↔
      ∃ node, tree.find? names = some node ∧ Left removed tree names ∧
        node' = node.prune fun below => removed (names ++ below) := by
  induction names generalizing tree removed with
  | nil =>
    have hleft : Left removed tree [] := fun above hne hpre =>
      absurd (List.prefix_nil.mp hpre) hne
    simp [hleft, eq_comm]
  | cons name names ih =>
    cases tree with
    | file content => simp [FileTree.prune]
    | dir entries =>
      have hpruned : (FileTree.dir (pruneEntries removed entries)).WellFormed := by
        have hprune := h.prune removed
        rwa [FileTree.prune] at hprune
      rw [FileTree.prune, hpruned.find?_cons_iff]
      have hbelow : ∀ {next : FileTree}, (name, next) ∈ entries → next.WellFormed := by
        intro next hnext
        cases h with
        | dir hnodup hplain hentries => exact hentries _ hnext
      constructor
      · rintro ⟨next', hnext', hfind'⟩
        obtain ⟨next, hnext, hstays, rfl⟩ := mem_pruneEntries_iff.mp hnext'
        obtain ⟨node, hfind, hleft, rfl⟩ := (ih (hbelow hnext)).mp hfind'
        exact ⟨node, h.find?_cons_iff.mpr ⟨next, hnext, hfind⟩,
          (left_cons_iff h hnext).mpr ⟨hstays, hleft⟩, rfl⟩
      · rintro ⟨node, hfind, hleft, rfl⟩
        obtain ⟨next, hnext, hfind⟩ := h.find?_cons_iff.mp hfind
        obtain ⟨hstays, hleft⟩ := (left_cons_iff h hnext).mp hleft
        exact ⟨_, mem_pruneEntries_iff.mpr ⟨next, hnext, hstays, rfl⟩,
          (ih (hbelow hnext)).mpr ⟨node, hfind, hleft, rfl⟩⟩

end FileTree

/-! ### Walks -/

/-- Branches in which nothing was found do not count. -/
theorem inNameOrder_filter {branches : List (String × List Path)}
    (h : (branches.map Prod.fst).Nodup) :
    inNameOrder (branches.filter fun branch => !branch.2.isEmpty) = inNameOrder branches := by
  have hempty : ∀ l : List (String × List Path),
      (l.filter fun branch => !branch.2.isEmpty).flatMap Prod.snd = l.flatMap Prod.snd := by
    intro l
    induction l with
    | nil => rfl
    | cons branch l ih =>
      cases hbranch : branch.2 with
      | nil => rw [List.filter_cons_of_neg (by simp [hbranch]), ih, List.flatMap_cons, hbranch,
          List.nil_append]
      | cons p ps => rw [List.filter_cons_of_pos (by simp [hbranch]), List.flatMap_cons, ih,
          List.flatMap_cons]
  rw [inNameOrder, Sorting.sortBy_filter h, hempty, inNameOrder]

/-- Entries of which nothing comes may be taken away before the walk. -/
theorem inNameOrder_map_filter {entries : List (String × FileTree)}
    {branch : String × FileTree → String × List Path} {stays : String × FileTree → Bool}
    (h : ((entries.map branch).map Prod.fst).Nodup)
    (hgone : ∀ entry ∈ entries, stays entry = false → (branch entry).2 = []) :
    inNameOrder ((entries.filter stays).map branch) = inNameOrder (entries.map branch) := by
  have hsub : (((entries.filter stays).map branch).map Prod.fst).Nodup :=
    h.sublist ((List.filter_sublist.map branch).map Prod.fst)
  have hfilter : ((entries.filter stays).map branch).filter (fun b => !b.2.isEmpty) =
      (entries.map branch).filter fun b => !b.2.isEmpty := by
    rw [List.filter_map, List.filter_map, List.filter_filter]
    congr 1
    apply List.filter_congr
    intro entry hmem
    cases hstays : stays entry with
    | true => simp
    | false => simp [hgone entry hmem hstays]
  rw [← inNameOrder_filter hsub, hfilter, inNameOrder_filter h]

/-- What a walk finds below an entry. -/
def walkBranch (keep : Path → Bool) (path : Path) (entry : String × FileTree) :
    String × List Path :=
  (entry.1, if keep (path.child entry.1) then walk keep (path.child entry.1) entry.2 else [])

/-- **A walk of a pruned tree** comes to the directories that a walk of the tree
itself keeps, if it keeps those that are not removed. -/
theorem walk_prune {keep keep' : Path → Bool} {removed : List String → Bool} {path : Path}
    {tree : FileTree} (hwf : tree.WellFormed) (hall : ∀ p, keep' p = true)
    (hkeep : ∀ names, names ≠ [] → (∀ name ∈ names, Path.isPlain name = true) →
      keep (path.under names) = !removed names) :
    walk keep' path (tree.prune removed) = walk keep path tree := by
  induction hwf generalizing path removed with
  | file content => rfl
  | @dir entries hnodup hplain hentries ih =>
    have hname : ∀ entry ∈ entries, keep (path.child entry.1) = !removed [entry.1] :=
      fun entry hmem => hkeep [entry.1] (by simp) (by simpa using hplain entry hmem)
    have hkeys : ((entries.map (walkBranch keep path)).map Prod.fst).Nodup := by
      rw [List.map_map]
      exact hnodup
    have hgone : ∀ entry ∈ entries, FileTree.staysIn removed entry = false →
        (walkBranch keep path entry).2 = [] := by
      intro entry hmem hgone
      simp only [FileTree.staysIn, Bool.not_eq_false', Bool.and_eq_true] at hgone
      simp [walkBranch, hname entry hmem, hgone.2]
    have hstays : ∀ entry ∈ entries, FileTree.staysIn removed entry = true →
        walk keep' (path.child entry.1)
          (entry.2.prune fun below => removed (entry.1 :: below)) =
          (walkBranch keep path entry).2 := by
      intro entry hmem hstays
      rw [ih entry hmem fun names _ h =>
        hkeep (entry.1 :: names) (by simp) (List.forall_mem_cons.mpr ⟨hplain entry hmem, h⟩)]
      cases hnode : entry.2 with
      | file content => simp [walkBranch, hnode, walk]
      | dir inner =>
        have hkept : removed [entry.1] = false := by
          simpa [FileTree.staysIn, hnode, FileTree.isDir] using hstays
        simp [walkBranch, hname entry hmem, hkept, hnode]
    have hpruned : walkEntries keep' path (FileTree.pruneEntries removed entries) =
        (entries.filter (FileTree.staysIn removed)).map (walkBranch keep path) := by
      rw [walkEntries_eq_map, FileTree.pruneEntries_eq_map, List.map_map]
      apply List.map_congr_left
      intro entry hmem
      obtain ⟨hmem, hkept⟩ := List.mem_filter.mp hmem
      simp only [Function.comp_apply, hall, ↓reduceIte, hstays entry hmem hkept]
      rfl
    rw [FileTree.prune, walk, walk, hpruned, inNameOrder_map_filter hkeys hgone,
      walkEntries_eq_map]
    rfl

end SolutionTree
