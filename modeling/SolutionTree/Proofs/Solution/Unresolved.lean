import SolutionTree.Command.Run
import SolutionTree.Proofs.Catalog.Insertion
import SolutionTree.Proofs.Solution.Members

/-!
What becomes of each name that a target depends on.

Three readers decide, each with a look-up of its own, whether such a name is the
name of a target: the list of unresolved names asks for the keys of the dependencies
(`Dependencies.isKnown_ofCatalog_iff`), the printed lines ask the catalog's
dictionary of positions (`Catalog.contains_iff_mem_names`), and the references ask a
dictionary of identifiers (`Catalog.identifiers_contains_iff`). `Catalog.Tells` goes
through the names from the front and says what all three make of each occurrence,
and `exists_tells_of_assemble` that this is what they do. So the names of a target
are its references and its unresolved names put together, with no name lost and none
put in (`Catalog.Tells.interleaves`).
-/

namespace SolutionTree

/-- Two lists put together: each element of both has its place, and the elements of
either list keep their order. -/
inductive Interleaves {α : Type} : List α → List α → List α → Prop where
  | nil : Interleaves [] [] []
  | left {a : α} {left right both : List α} :
      Interleaves left right both → Interleaves (a :: left) right (a :: both)
  | right {a : α} {left right both : List α} :
      Interleaves left right both → Interleaves left (a :: right) (a :: both)

/-- What is drawn before a name, by the names that follow it. -/
def Command.branch (rest : List String) : String :=
  if rest.isEmpty then "└── " else "├── "

/-- What is told of the names that a target depends on, one occurrence after
another: their references, the unresolved ones among them, and the lines that are
printed. A name of a target becomes a reference to it and is printed as it is; a
name that no target has becomes no reference, is unresolved and is printed with a
mark. -/
inductive Catalog.Tells (c : Catalog) :
    List String → List Reference → List String → List String → Prop where
  | nil : Tells c [] [] [] []
  | found {u : Target} {names : List String} {references : List Reference}
      {unresolved lines : List String} :
      u ∈ c.targets → Tells c names references unresolved lines →
      Tells c (u.name :: names) (u.reference :: references) unresolved
        ((Command.branch names ++ u.name) :: lines)
  | missing {name : String} {names : List String} {references : List Reference}
      {unresolved lines : List String} :
      name ∉ c.names → Tells c names references unresolved lines →
      Tells c (name :: names) references (name :: unresolved)
        ((Command.branch names ++ name ++ " (unresolved)") :: lines)

/-- The names among a target's dependencies that are listed as unresolved. -/
def Dependencies.unresolvedOf (d : Dependencies) (name : String) : List String :=
  (d.unresolved.filter fun entry => entry.1 = name).map Prod.snd

/-! ### One name -/

/-- The keys of the dependencies are the names of the targets, since every target
has its list of edges, an empty one too. -/
theorem Dependencies.isKnown_ofCatalog_iff {c : Catalog} {name : String} :
    (ofCatalog c).isKnown name = true ↔ name ∈ c.names := by
  rw [isKnown, List.contains_iff_mem, (names_ofCatalog_perm c).mem_iff]

/-- The catalog has a position for the names of its targets, as long as the
dictionary of names is in step with the list. -/
theorem Catalog.contains_iff_mem_names {c : Catalog} {name : String} :
    c.contains name = true ↔ name ∈ c.names :=
  contains_iff.trans mem_names_iff.symm

/-- An identifier is there for the names of the targets: the dictionary is made of
the whole list, and a name that came twice would only have been written twice. -/
theorem Catalog.identifiers_contains_iff {c : Catalog} {name : String} :
    c.identifiers.contains name = true ↔ name ∈ c.names := by
  rw [Dictionary.contains, identifiers_get?, Option.isSome_map, Option.isSome_iff_exists,
    mem_names_iff]
  simp only [find?_eq_some_iff]

namespace Dependencies

/-- With one list of edges for each target, the names that are listed for it are
those of its own that are not known. -/
theorem unresolvedOf_eq {d : Dependencies} (hnodup : d.names.Nodup) (name : String) :
    d.unresolvedOf name = (d.of name).filter fun dependency => !d.isKnown dependency := by
  have key : ∀ (known : String → Bool) (edges : List (String × List String)),
      (edges.map Prod.fst).Nodup →
      ((edges.flatMap fun edge => (edge.2.filter fun dependency => !known dependency).map
          (edge.1, ·)).filter fun entry => entry.1 = name).map Prod.snd =
        ((edges.lookup name).getD []).filter fun dependency => !known dependency := by
    intro known edges hedges
    induction edges with
    | nil => rfl
    | cons edge edges ih =>
      obtain ⟨hfresh, hrest⟩ := List.nodup_cons.mp hedges
      rw [List.flatMap_cons, List.filter_append, List.map_append, ih hrest, List.lookup_cons]
      by_cases hname : edge.1 = name
      · have habsent : edges.lookup name = none :=
          Association.lookup_eq_none_iff.mpr (hname ▸ hfresh)
        simp [hname, habsent, List.filter_map, Function.comp_def]
      · have hne : (name == edge.1) = false := beq_false_of_ne (Ne.symm hname)
        simp [hname, hne, List.filter_map, Function.comp_def]
  exact key d.isKnown d.edges hnodup

end Dependencies

/-! ### All names of a target -/

namespace Catalog

variable {c : Catalog}

/-- **Each name is told of**: by the references whose identifiers are there, by the
names that the dependencies do not know, and by the lines that are marked where the
catalog has no position. Whether the name is a target's decides all three. -/
theorem tells (c : Catalog) (names : List String) :
    c.Tells names
      (names.filterMap fun name => (c.identifiers.get? name).map fun id => (⟨name, id⟩ : Reference))
      (names.filter fun name => !(Dependencies.ofCatalog c).isKnown name)
      (Command.edgeLines c.contains names) := by
  induction names with
  | nil => exact .nil
  | cons name names ih =>
    rw [List.filterMap_cons, List.filter_cons, Command.edgeLines]
    by_cases hname : name ∈ c.names
    · have hknown := Dependencies.isKnown_ofCatalog_iff.mpr hname
      have hcontains := contains_iff_mem_names.mpr hname
      obtain ⟨id, hid⟩ := Option.isSome_iff_exists.mp (identifiers_contains_iff.mpr hname)
      obtain ⟨u, hu, hreference⟩ : ∃ u ∈ c.targets, u.reference = ⟨name, id⟩ := by
        have hfound := reference_of_identifiers (c := c) name
        rw [hid] at hfound
        obtain ⟨u, hu, hreference⟩ := Option.map_eq_some_iff.mp hfound.symm
        exact ⟨u, (find?_eq_some_iff.mp hu).1, hreference⟩
      obtain ⟨rfl, rfl⟩ := Reference.mk.inj hreference
      simpa [hknown, hcontains, hid, Command.branch, Target.reference] using ih.found hu
    · have hknown := Bool.eq_false_iff.mpr (mt Dependencies.isKnown_ofCatalog_iff.mp hname)
      have hcontains := Bool.eq_false_iff.mpr (mt contains_iff_mem_names.mp hname)
      have hid := Option.not_isSome_iff_eq_none.mp (mt identifiers_contains_iff.mp hname)
      simpa [hknown, hcontains, hid, Command.branch] using ih.missing hname

/-- What is printed is told by the names alone: a line for each, with a mark where
no target has the name. -/
theorem Tells.lines_eq {names unresolved lines : List String} {references : List Reference}
    (h : c.Tells names references unresolved lines) :
    lines = Command.edgeLines c.contains names := by
  induction h with
  | nil => rfl
  | @found u _ _ _ _ hu _ ih =>
    have hcontains := contains_iff_mem_names.mpr (mem_names_iff.mpr ⟨u, hu, rfl⟩)
    simp [Command.edgeLines, Command.branch, hcontains, ih]
  | missing hname _ ih =>
    have hcontains := Bool.eq_false_iff.mpr (mt contains_iff_mem_names.mp hname)
    simp [Command.edgeLines, Command.branch, hcontains, ih]

/-- The names are the referred and the unresolved ones, put together. -/
theorem Tells.interleaves {names unresolved lines : List String} {references : List Reference}
    (h : c.Tells names references unresolved lines) :
    Interleaves (references.map Reference.name) unresolved names := by
  induction h with
  | nil => exact .nil
  | found _ _ ih => exact ih.left
  | missing _ _ ih => exact ih.right

end Catalog

/-! ### The printed lines -/

namespace Command

/-- The lines of one target are all that is printed when it is asked for. -/
theorem edgeText_some {c : Catalog} (d : Dependencies) {t : Target} (ht : t ∈ c.targets) :
    edgeText c d (some t.name) = String.join ((targetLines c d t).map (· ++ "\n")) := by
  have hfilter : (c.targets.filter fun u => t.name == u.name) = [t] := by
    refine List.perm_singleton.mp ((List.perm_ext_iff_of_nodup
      ((List.Nodup.of_map _ c.distinct).filter _) (List.nodup_singleton t)).mpr fun u => ?_)
    rw [List.mem_filter, beq_iff_eq, List.mem_singleton]
    constructor
    · rintro ⟨hu, hname⟩
      exact List.inj_on_of_nodup_map c.distinct hu ht hname.symm
    · rintro rfl
      exact ⟨ht, rfl⟩
  simp only [edgeText, Option.all_some, hfilter, List.flatMap_singleton]

/-- When none is asked for, the lines of all targets are printed, in the order of
the catalog. -/
theorem edgeText_none (c : Catalog) (d : Dependencies) :
    edgeText c d none = String.join (c.targets.map fun t => edgeText c d (some t.name)) := by
  have hjoin : ∀ targets : List Target,
      String.join ((targets.flatMap (targetLines c d)).map (· ++ "\n")) =
        String.join (targets.map fun t => String.join ((targetLines c d t).map (· ++ "\n"))) := by
    intro targets
    induction targets with
    | nil => rfl
    | cons t targets ih =>
      rw [List.flatMap_cons, List.map_append, String.join_append, ih, List.map_cons,
        String.join_cons]
  simp only [edgeText, Option.all_none, List.filter_true]
  rw [hjoin, List.map_congr_left fun t ht => (edgeText_some d ht).symm]
  rfl

/-- After a scan, a request for the dependencies of known targets prints them. The
command asks the set of targets itself which names are known. -/
theorem result_graph {c : Catalog} {p : Project} {fs : FileSystem} {wanted : Option String}
    (h : p.scanSeeded fs = .ok c) (hwanted : wanted.all c.contains = true) :
    (graph fs p wanted false).result = .ok (edgeText c (.ofCatalog c) wanted) := by
  have hnone : wanted.filter (fun name => !c.contains name) = none := by
    cases wanted <;> simp_all
  unfold Project.scanSeeded at h
  simp only [graph, h, hnone, Bool.false_eq_true, ↓reduceIte]

end Command

/-! ### All readers at once -/

/-- **The readers agree** on every occurrence of every name. A solution has one
member for each target; what its references are, what is listed as unresolved for it
and what is printed of it is what `Catalog.Tells` makes of the names that the target
depends on, so that these are the names of the references and the unresolved names
put together. The lines of all targets are those of each, in the order of the
catalog, and they are what a run prints. -/
theorem exists_tells_of_assemble {c : Catalog} {options : SolutionOptions} {s : Solution}
    (h : Solution.assemble c (.ofCatalog c) options = .ok s) :
    (s.members.map Member.target).Perm c.targets ∧
    (∀ m ∈ s.members, ∃ lines,
      c.Tells ((Dependencies.ofCatalog c).of m.target.name) m.references
        ((Dependencies.ofCatalog c).unresolvedOf m.target.name) lines ∧
      Command.edgeText c (.ofCatalog c) (some m.target.name) =
        String.join (((m.target.name ++ " (" ++ m.target.kind.word ++ ")") :: lines).map (· ++ "\n")) ∧
      Interleaves (m.references.map Reference.name)
        ((Dependencies.ofCatalog c).unresolvedOf m.target.name)
        ((Dependencies.ofCatalog c).of m.target.name)) ∧
    Command.edgeText c (.ofCatalog c) none =
      String.join (c.targets.map fun t => Command.edgeText c (.ofCatalog c) (some t.name)) ∧
    ∀ fs p wanted, Project.scanSeeded p fs = .ok c → wanted.all c.contains = true →
      (Command.graph fs p wanted false).result =
        .ok (Command.edgeText c (.ofCatalog c) wanted) := by
  refine ⟨Solution.targets_perm h, fun m hm => ?_, Command.edgeText_none c _,
    fun fs p wanted => Command.result_graph⟩
  obtain ⟨t, ht, rfl⟩ := (Solution.mem_members_iff h).mp hm
  have htells := c.tells ((Dependencies.ofCatalog c).of t.name)
  rw [← Dependencies.unresolvedOf_eq (Dependencies.nodup_names_ofCatalog c)] at htells
  exact ⟨_, htells, Command.edgeText_some _ ht, htells.interleaves⟩

/-- The second library declares four names, three of which mean the first library;
its test has the same names and then the library's own. Four of the test's five
names become references, and the fifth is marked where it is printed. -/
theorem exists_tells_of_assemble_besideEachOther :
    ∃ s, Solution.assemble besideEachOther (.ofCatalog besideEachOther) {} = .ok s ∧
      ∃ m ∈ s.members, m.target.name = "lib_b_test" ∧
        besideEachOther.Tells ["lib_a", "boost", "lib_a", "lib_a", "lib_b"] m.references ["boost"]
          ["├── lib_a", "├── boost (unresolved)", "├── lib_a", "├── lib_a", "└── lib_b"] ∧
        Interleaves (m.references.map Reference.name) ["boost"]
          ["lib_a", "boost", "lib_a", "lib_a", "lib_b"] := by
  have h : Solution.assemble besideEachOther (.ofCatalog besideEachOther) {} = .ok _ := rfl
  obtain ⟨hperm, hmembers, -, -⟩ := exists_tells_of_assemble h
  have hmem : "lib_b_test" ∈ besideEachOther.names := by decide
  obtain ⟨_, ht, hname⟩ := List.mem_map.mp (((hperm.map Target.name).mem_iff).mpr hmem)
  obtain ⟨m, hm, rfl⟩ := List.mem_map.mp ht
  obtain ⟨lines, htells, -, hinterleaves⟩ := hmembers m hm
  have hunresolved :
      (Dependencies.ofCatalog besideEachOther).unresolvedOf "lib_b_test" = ["boost"] := by cbv
  have hof : (Dependencies.ofCatalog besideEachOther).of "lib_b_test" =
      ["lib_a", "boost", "lib_a", "lib_a", "lib_b"] := by cbv
  have hlines : Command.edgeLines besideEachOther.contains ["lib_a", "boost", "lib_a", "lib_a", "lib_b"] =
      ["├── lib_a", "├── boost (unresolved)", "├── lib_a", "├── lib_a", "└── lib_b"] := by
    decide +kernel
  rw [hname, hunresolved, hof] at htells hinterleaves
  rw [htells.lines_eq, hlines] at htells
  exact ⟨_, h, m, hm, hname, htells, hinterleaves⟩

end SolutionTree
