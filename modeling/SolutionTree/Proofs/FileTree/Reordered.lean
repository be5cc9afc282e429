import Mathlib.Data.List.Perm.Basic
import Mathlib.Data.Option.Basic
import SolutionTree.FileTree.Position
import SolutionTree.Proofs.FileTree.WellFormed

/-!
Trees that are listed in different orders.

`Reordered` relates two trees that have the same at every place, and differ in the
order in which their directories list entries. A name then looks up the same in both
(`Reordered.lookup`), and what is made of each entry by itself comes to the same but
for its order (`perm_map_of_names`).

Steps up and down lead from one to the other too (`Position.Reordered`): what a
position has above it is listed in another order as well, but holds it under the
same name.
-/

namespace SolutionTree.FileTree

/-- Trees that are told apart by nothing but the order in which their directories
list entries. -/
inductive Reordered : FileTree → FileTree → Prop where
  | file (content : ByteArray) : Reordered (.file content) (.file content)
  | dir {entries entries' : List (String × FileTree)} :
      (entries.map Prod.fst).Nodup → (entries.map Prod.fst).Perm (entries'.map Prod.fst) →
      (∀ name node node', (name, node) ∈ entries → (name, node') ∈ entries' →
        Reordered node node') →
      Reordered (.dir entries) (.dir entries')

/-! ### Entries -/

section Entries

variable {entries entries' : List (String × FileTree)}

/-- What is made of entries is the same in another order if it is the same for each
name. -/
theorem perm_map_of_names {β : Type} {f : String × FileTree → β}
    (hnames : (entries.map Prod.fst).Perm (entries'.map Prod.fst))
    (hf : ∀ name node node', (name, node) ∈ entries → (name, node') ∈ entries' →
      f (name, node) = f (name, node')) :
    (entries.map f).Perm (entries'.map f) := by
  induction entries generalizing entries' with
  | nil =>
    obtain rfl := List.map_eq_nil_iff.mp (List.nil_perm.mp hnames)
    exact .nil
  | cons entry rest ih =>
    obtain ⟨name, node⟩ := entry
    have hname : name ∈ entries'.map Prod.fst := hnames.subset List.mem_cons_self
    obtain ⟨⟨name, node'⟩, hmem, rfl⟩ := List.mem_map.mp hname
    obtain ⟨front, back, rfl⟩ := List.append_of_mem hmem
    have hmiddle : (front ++ (name, node') :: back).Perm ((name, node') :: (front ++ back)) :=
      List.perm_middle
    have hrest : (rest.map Prod.fst).Perm ((front ++ back).map Prod.fst) :=
      (hnames.trans (hmiddle.map Prod.fst)).cons_inv
    have hbelow := ih hrest fun name node node' h h' =>
      hf name node node' (List.mem_cons_of_mem _ h)
        (hmiddle.symm.subset (List.mem_cons_of_mem _ h'))
    rw [List.map_cons, hf name node node' List.mem_cons_self hmem]
    exact (hbelow.cons _).trans (hmiddle.map f).symm

/-- The names that are kept are the same in another order if each is kept in both or
in neither. -/
theorem perm_filter_of_names {keep : String × FileTree → Bool}
    (hnames : (entries.map Prod.fst).Perm (entries'.map Prod.fst))
    (hkeep : ∀ name node node', (name, node) ∈ entries → (name, node') ∈ entries' →
      keep (name, node) = keep (name, node')) :
    ((entries.filter keep).map Prod.fst).Perm ((entries'.filter keep).map Prod.fst) := by
  have hmarked : ∀ l : List (String × FileTree), (l.filter keep).map Prod.fst =
      ((l.map fun entry => (entry.1, keep entry)).filter Prod.snd).map Prod.fst := by
    intro l
    rw [List.filter_map, List.map_map]
    rfl
  rw [hmarked, hmarked]
  refine ((perm_map_of_names hnames ?_).filter _).map _
  intro name node node' hmem hmem'
  rw [hkeep name node node' hmem hmem']

end Entries

namespace Reordered

variable {tree tree' : FileTree} {entries entries' : List (String × FileTree)} {name : String}

theorem isFile_eq (h : tree.Reordered tree') : tree.isFile = tree'.isFile := by
  cases h <;> rfl

/-- A name looks up the same, or nothing in both. -/
theorem lookup (h : tree.Reordered tree') (name : String) :
    Option.Rel Reordered (tree.entries.lookup name) (tree'.entries.lookup name) := by
  cases h with
  | file content => exact .none
  | @dir entries entries' hnodup hnames hentries =>
    have hnodup' := hnames.nodup_iff.mp hnodup
    have habsent : entries.lookup name = none ↔ entries'.lookup name = none := by
      rw [Association.lookup_eq_none_iff, Association.lookup_eq_none_iff, hnames.mem_iff]
    simp only [FileTree.entries]
    cases hlookup : entries.lookup name with
    | none =>
      rw [habsent.mp hlookup]
      exact .none
    | some node =>
      cases hlookup' : entries'.lookup name with
      | none =>
        rw [habsent.mpr hlookup'] at hlookup
        contradiction
      | some node' =>
        exact .some (hentries name node node'
          ((Association.lookup_eq_some_iff_mem hnodup).mp hlookup)
          ((Association.lookup_eq_some_iff_mem hnodup').mp hlookup'))

/-- A directory may list the entries that it has in any order. -/
theorem of_perm (hnodup : (entries.map Prod.fst).Nodup) (hperm : entries.Perm entries')
    (hentries : ∀ entry ∈ entries, entry.2.Reordered entry.2) :
    (FileTree.dir entries).Reordered (.dir entries') := by
  refine .dir hnodup (hperm.map Prod.fst) ?_
  intro name node node' hmem hmem'
  obtain rfl : node = node' := congrArg Prod.snd
    (List.inj_on_of_nodup_map hnodup hmem (hperm.mem_iff.mpr hmem') rfl)
  exact hentries _ hmem

/-- A tree is told apart from itself by nothing. -/
theorem refl (h : tree.WellFormed) : tree.Reordered tree := by
  induction h with
  | file content => exact .file content
  | dir hnodup hplain hentries ih => exact of_perm hnodup (.refl _) ih

end Reordered

/-! ### Positions -/

namespace Position

theorem enter?_eq_map (p : Position) (name : String) :
    p.enter? name = (p.node.entries.lookup name).map fun node =>
      ⟨node, (name, p.node) :: p.above⟩ := by
  unfold enter?
  cases p.node.entries.lookup name <;> rfl

/-- Positions that the same names lead to in two trees that are listed in different
orders. -/
inductive Reordered : Position → Position → Prop where
  | top {tree tree' : FileTree} : tree.Reordered tree' → Reordered (.top tree) (.top tree')
  | enter {p p' q q' : Position} {name : String} :
      Reordered p p' → p.enter? name = some q → p'.enter? name = some q' → Reordered q q'

namespace Reordered

variable {p p' : Position}

theorem node (h : p.Reordered p') : p.node.Reordered p'.node := by
  induction h with
  | top htree => exact htree
  | @enter p p' q q' name hp hq hq' ih =>
    have hlookup := ih.lookup name
    rw [enter?_eq_map, Option.map_eq_some_iff] at hq hq'
    obtain ⟨node, hnode, rfl⟩ := hq
    obtain ⟨node', hnode', rfl⟩ := hq'
    rw [hnode, hnode'] at hlookup
    cases hlookup with
    | some hnodes => exact hnodes

theorem up (h : p.Reordered p') : p.up.Reordered p'.up := by
  cases h with
  | top htree => exact .top htree
  | enter hp hq hq' =>
    rw [up_of_enter? hq, up_of_enter? hq']
    exact hp

/-- An entry of a name is entered on both sides or on neither, since no name stands
twice. -/
theorem enter? (h : p.Reordered p') (name : String) :
    Option.Rel Reordered (p.enter? name) (p'.enter? name) := by
  have hlookup := h.node.lookup name
  generalize hnode : p.node.entries.lookup name = found at hlookup
  generalize hnode' : p'.node.entries.lookup name = found' at hlookup
  have henter := p.enter?_eq_map name
  have henter' := p'.enter?_eq_map name
  rw [hnode] at henter
  rw [hnode'] at henter'
  cases hlookup with
  | none =>
    rw [henter, henter']
    exact .none
  | some hnodes =>
    have hnext := h.enter henter henter'
    rw [henter, henter']
    exact .some hnext

/-- Names lead down on both sides or on neither. -/
theorem descend? (h : p.Reordered p') (names : List String) :
    Option.Rel Reordered (p.descend? names) (p'.descend? names) := by
  induction names generalizing p p' with
  | nil => exact .some h
  | cons name names ih =>
    have hnext := h.enter? name
    simp only [Position.descend?]
    generalize p.enter? name = next at hnext
    generalize p'.enter? name = next' at hnext
    cases hnext with
    | none => exact .none
    | some hnext => exact ih hnext

end Reordered

end Position

end SolutionTree.FileTree
