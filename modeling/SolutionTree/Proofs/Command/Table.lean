import SolutionTree.Command.Run
import SolutionTree.Proofs.Report

/-!
The columns of the table of targets.

`Shows` reads a line of the table as four fields with blanks between them and says
after how many characters the kind and the identifier start. There is only one way
to read a text so (`Shows.append_inj`). The kinds all start at one position,
whatever the names are: names are padded to a number of bytes, which is never less
than their number of characters (`shows_tableLine`). Nothing is put behind a kind
but one blank, so an identifier starts where the word for the kind ends, and the
identifiers start at one position just if all targets are of one kind
(`isAligned_table_iff`).
-/

namespace SolutionTree.Command

/-! ### Reading a line -/

def blanks (n : Nat) : String :=
  String.ofList (List.replicate n ' ')

/-- A line that shows a target: its name, kind, identifier and directory, with
blanks between them. The numbers say after how many characters the kind and the
identifier start. -/
inductive Shows (t : Target) : String → Nat → Nat → Prop where
  | fields {a b c : Nat} : 0 < a → 0 < b → 0 < c →
      Shows t (t.name ++ blanks a ++ t.kind.word ++ blanks b ++ t.id.text ++ blanks c ++
          Target.shownDir t.relativeDir)
        (t.name.length + a) (t.name.length + a + t.kind.word.length + b)

/-- A text that has a line for each target, in their order, with all kinds at one
position and all identifiers at another. -/
def IsAligned (targets : List Target) (text : String) : Prop :=
  ∃ lines kindAt idAt, text = String.join (lines.map (· ++ "\n")) ∧
    List.Forall₂ (fun t line => Shows t line kindAt idAt) targets lines

theorem toList_blanks (n : Nat) : (blanks n).toList = List.replicate n ' ' := by
  simp [blanks]

theorem padRight_eq (width : Nat) (s : String) :
    padRight width s = s ++ blanks (width - s.length) := rfl

/-- Blanks before something else are counted by what they are before. -/
theorem replicate_blank_append_inj {m n : Nat} {xs ys : List Char} (hx : xs.head? ≠ some ' ')
    (hy : ys.head? ≠ some ' ')
    (h : List.replicate m ' ' ++ xs = List.replicate n ' ' ++ ys) : m = n ∧ xs = ys := by
  induction m generalizing n with
  | zero =>
    cases n with
    | zero => exact ⟨rfl, h⟩
    | succ n =>
      rw [List.replicate_zero, List.nil_append] at h
      rw [h] at hx
      exact absurd rfl hx
  | succ m ih =>
    cases n with
    | zero =>
      rw [List.replicate_zero, List.nil_append] at h
      rw [← h] at hy
      exact absurd rfl hy
    | succ n =>
      simp only [List.replicate_succ, List.cons_append, List.cons.injEq, true_and] at h
      obtain ⟨rfl, hrest⟩ := ih h
      exact ⟨rfl, hrest⟩

/-- The word of a kind does not start with a blank, so the blanks before it end
there. -/
theorem head?_word_append (kind : Target.Kind) (cs : List Char) :
    (kind.word.toList ++ cs).head? ≠ some ' ' := by
  cases kind <;> simp [Target.Kind.word]

theorem head?_text_append (id : Identifier) (cs : List Char) :
    (id.text.toList ++ cs).head? ≠ some ' ' := by
  simp [Identifier.text]

/-- A directory may itself start with blanks. Those before it are counted all the
same, by where the first other character stands, at the latest the end of the line.
-/
theorem replicate_blank_append_line_inj {m n : Nat} {dir rest rest' : List Char}
    (h : List.replicate m ' ' ++ (dir ++ '\n' :: rest) =
      List.replicate n ' ' ++ (dir ++ '\n' :: rest')) : m = n ∧ rest = rest' := by
  induction dir generalizing m n with
  | nil =>
    obtain ⟨rfl, hrest⟩ := replicate_blank_append_inj (by simp) (by simp) h
    exact ⟨rfl, by simpa using hrest⟩
  | cons c dir ih =>
    by_cases hc : c = ' '
    · subst hc
      have hstep : ∀ (k : Nat) (cs : List Char), List.replicate k ' ' ++ (' ' :: dir ++ cs) =
          List.replicate (k + 1) ' ' ++ (dir ++ cs) := by
        intro k cs
        simp [List.replicate_succ']
      rw [hstep, hstep] at h
      obtain ⟨hcount, hrest⟩ := ih h
      exact ⟨Nat.succ.inj hcount, hrest⟩
    · obtain ⟨rfl, hrest⟩ := replicate_blank_append_inj (by simpa using hc) (by simpa using hc) h
      exact ⟨rfl, by simpa using hrest⟩

/-- **A text can be read as the line of a target in one way only.** The name and the
kind are given, and neither the word of a kind nor an identifier starts with a
blank. -/
theorem Shows.append_inj {t : Target} {line line' rest rest' : String} {k k' i i' : Nat}
    (h : Shows t line k i) (h' : Shows t line' k' i')
    (heq : line ++ "\n" ++ rest = line' ++ "\n" ++ rest') :
    k = k' ∧ i = i' ∧ line = line' ∧ rest = rest' := by
  obtain ⟨-, -, -⟩ := h
  obtain ⟨-, -, -⟩ := h'
  have hcs := congrArg String.toList heq
  simp only [String.toList_append, toList_blanks, List.append_assoc, List.append_cancel_left_eq]
    at hcs
  obtain ⟨rfl, hword⟩ :=
    replicate_blank_append_inj (head?_word_append _ _) (head?_word_append _ _) hcs
  obtain ⟨rfl, hid⟩ := replicate_blank_append_inj (head?_text_append _ _) (head?_text_append _ _)
    (List.append_cancel_left hword)
  obtain ⟨rfl, hrest⟩ := replicate_blank_append_line_inj (List.append_cancel_left hid)
  exact ⟨rfl, rfl, rfl, String.toList_inj.mp hrest⟩

/-! ### The table -/

/-- The width of the names is what none of them exceeds in bytes. -/
theorem nameWidth_le_iff {c : Catalog} {width : Nat} :
    nameWidth c ≤ width ↔ ∀ name ∈ c.names, name.utf8ByteSize ≤ width := by
  have hfold : ∀ (names : List String) (first : Nat),
      names.foldl (fun most name => max most name.utf8ByteSize) first ≤ width ↔
        first ≤ width ∧ ∀ name ∈ names, name.utf8ByteSize ≤ width := by
    intro names
    induction names with
    | nil => simp
    | cons name names ih =>
      intro first
      rw [List.foldl_cons, ih, List.forall_mem_cons, max_le_iff, and_assoc]
  rw [nameWidth, hfold]
  exact and_iff_right (Nat.zero_le width)

/-- The column of names is wide enough for each of them: a name has no more
characters than bytes. -/
theorem length_name_le_nameWidth {c : Catalog} {t : Target} (ht : t ∈ c.targets) :
    t.name.length ≤ nameWidth c :=
  (Text.length_le_utf8ByteSize t.name).trans
    (nameWidth_le_iff.mp le_rfl t.name (List.mem_map_of_mem ht))

/-- **Where a line has its kind** does not hang on the name if that fits, and its
identifier follows the kind. -/
theorem shows_tableLine {t : Target} {width : Nat} (h : t.name.length ≤ width) :
    Shows t (tableLine width t) (width + 2) (width + 2 + t.kind.word.length + 1) := by
  have hname : padRight width t.name ++ "  " = t.name ++ blanks (width - t.name.length + 2) := by
    apply String.toList_inj.mp
    simp [padRight_eq, toList_blanks, List.replicate_add]
  have hline : tableLine width t = t.name ++ blanks (width - t.name.length + 2) ++ t.kind.word ++
      blanks 1 ++ t.id.text ++ blanks 2 ++ Target.shownDir t.relativeDir := by
    rw [tableLine, hname]
    rfl
  have hwidth : width + 2 = t.name.length + (width - t.name.length + 2) := by omega
  rw [hline, hwidth]
  exact .fields (by omega) (by omega) (by omega)

/-- The words for the kinds are of different lengths. -/
theorem length_word_inj {kind kind' : Target.Kind} :
    kind.word.length = kind'.word.length ↔ kind = kind' := by
  cases kind <;> cases kind' <;> decide

/-- Lines that show the same targets and make the same text have their fields at the
same positions. -/
theorem positions_eq_of_join_eq {targets : List Target} {lines : List String}
    {line : Target → String}
    {kindAt idAt : Nat} {kindOf idOf : Target → Nat}
    (h : List.Forall₂ (fun t line => Shows t line kindAt idAt) targets lines)
    (hline : ∀ t ∈ targets, Shows t (line t) (kindOf t) (idOf t))
    (heq : String.join (targets.map fun t => line t ++ "\n") = String.join (lines.map (· ++ "\n"))) :
    ∀ t ∈ targets, kindOf t = kindAt ∧ idOf t = idAt := by
  induction h with
  | nil => simp
  | cons hfirst hrest ih =>
    obtain ⟨ht, htargets⟩ := List.forall_mem_cons.mp hline
    simp only [List.map_cons, String.join_cons] at heq
    obtain ⟨hkind, hid, -, hjoin⟩ := ht.append_inj hfirst heq
    exact List.forall_mem_cons.mpr ⟨⟨hkind, hid⟩, ih htargets hjoin⟩

variable {c : Catalog}

/-- A table has one line for each target, in their order. -/
theorem table_eq_join :
    table c = String.join ((c.targets.map (tableLine (nameWidth c))).map (· ++ "\n")) := by
  rw [table, List.map_map]
  rfl

/-- The line of a target has its kind behind the column of names, and its identifier
right behind the word of the kind, wherever that ends. -/
theorem shows_of_mem {t : Target} (ht : t ∈ c.targets) :
    Shows t (tableLine (nameWidth c) t) (nameWidth c + 2)
      (nameWidth c + 2 + t.kind.word.length + 1) :=
  shows_tableLine (length_name_le_nameWidth ht)

/-- **The identifiers stand in one column just if all targets are of one kind.** An
identifier starts right behind the word of a kind, and the words have different
lengths. -/
theorem isAligned_table_iff :
    IsAligned c.targets (table c) ↔ ∀ t ∈ c.targets, ∀ u ∈ c.targets, t.kind = u.kind := by
  constructor
  · rintro ⟨lines, kindAt, idAt, htext, hlines⟩ t ht u hu
    rw [table_eq_join, List.map_map] at htext
    have hpositions := positions_eq_of_join_eq hlines (fun t => shows_of_mem) htext
    have hsame := (hpositions t ht).2.trans (hpositions u hu).2.symm
    exact length_word_inj.mp (by omega)
  · intro hkinds
    obtain ⟨idAt, hid⟩ : ∃ idAt, ∀ t ∈ c.targets,
        nameWidth c + 2 + t.kind.word.length + 1 = idAt := by
      cases htargets : c.targets with
      | nil => exact ⟨0, by simp⟩
      | cons u targets =>
        refine ⟨nameWidth c + 2 + u.kind.word.length + 1, fun t ht => ?_⟩
        rw [hkinds t (htargets ▸ ht) u (by simp [htargets])]
    refine ⟨c.targets.map (tableLine (nameWidth c)), nameWidth c + 2, idAt, table_eq_join, ?_⟩
    rw [List.forall₂_map_right_iff, List.forall₂_same]
    exact fun t ht => hid t ht ▸ shows_of_mem ht

/-- A request for the targets prints their table after a scan, and fails as the scan
does. -/
theorem result_scan (fs : FileSystem) (p : Project) :
    (scan fs p false).result =
      match p.scanSeeded fs with
      | .error e => .error (.run e)
      | .ok catalog => .ok (table catalog) := by
  simp only [scan, Project.scanSeeded]
  cases p.catalogOf (p.survey fs) with
  | error e => rfl
  | ok catalog => rfl

/-- **The table of any targets** is printed after the scan that finds them, and has
a line for each of them. All kinds start at one position, whatever the names and the
directories are; an identifier starts one character behind its kind, so that the
identifiers start at one position just if the kinds are all the same. -/
theorem columns_of_table (c : Catalog) :
    (∀ fs p, Project.scanSeeded p fs = .ok c → (scan fs p false).result = .ok (table c)) ∧
    (∃ lines, table c = String.join (lines.map (· ++ "\n")) ∧
      List.Forall₂ (fun t line => Shows t line (nameWidth c + 2)
        (nameWidth c + 2 + t.kind.word.length + 1)) c.targets lines) ∧
    (IsAligned c.targets (table c) ↔ ∀ t ∈ c.targets, ∀ u ∈ c.targets, t.kind = u.kind) := by
  refine ⟨fun fs p h => ?_, ⟨c.targets.map (tableLine (nameWidth c)), table_eq_join, ?_⟩,
    isAligned_table_iff⟩
  · rw [result_scan, h]
  · rw [List.forall₂_map_right_iff, List.forall₂_same]
    exact fun t => shows_of_mem

/-! ### A library and its test -/

/-- A source tree with a library and its test, whose names have more bytes than
characters. -/
def umlautTree : FileTree :=
  .dir [("größe", .dir Project.testedEntries)]

def umlautFiles : FileSystem where
  tree := .dir [("src", umlautTree)]

def umlaut : Project where
  root := ⟨"/"⟩
  sourceDir := ⟨"/src"⟩
  outputDir := ⟨"/bin"⟩
  intermediateDir := ⟨"/out"⟩
  settings := {}

def umlautWalk : List Path := [⟨"/src"⟩, ⟨"/src/größe"⟩, ⟨"/src/größe/test"⟩]

theorem survey_umlaut : umlaut.survey umlautFiles =
    .ok ⟨umlautWalk.map (Scanner.inspect ⟨umlaut, []⟩ umlautFiles)⟩ := by
  have htested : walk (Scanner.keeps ⟨umlaut, []⟩) (umlaut.sourceDir.child "größe")
      (.dir Project.testedEntries) = [⟨"/src/größe"⟩, ⟨"/src/größe/test"⟩] := by
    rw [walk_dir_of_sorted (by decide)]
    decide +kernel
  have hwalk : walk (Scanner.keeps ⟨umlaut, []⟩) umlaut.sourceDir umlautTree = umlautWalk := by
    rw [umlautTree, walk_dir_of_sorted (by decide), walkEntries, walkEntries, htested]
    decide +kernel
  have hfits : ∀ dir ∈ umlautWalk, FileSystem.refusal? dir = none := by decide +kernel
  exact Project.survey_of_walk rfl rfl hwalk hfits

def umlautRows : List Row :=
  [⟨"größe", "größe", .library, {}, none⟩,
    ⟨"größe/test", "größe_test", .test, {}, some ⟨"größe", "größe", []⟩⟩]

theorem scanSeeded_umlaut : ∃ catalog, umlaut.scanSeeded umlautFiles = .ok catalog ∧
    catalog.targets.map Target.row = umlautRows := by
  have hfound : (Survey.gather (umlautWalk.map
      (Scanner.inspect ⟨umlaut, []⟩ umlautFiles))).toOption.map (List.map Candidate.row) =
        some umlautRows := by
    decide +kernel
  obtain ⟨catalog, -, hscan, hrows, -⟩ := Project.exists_report_of_scan rfl (by decide +kernel)
    (Project.exists_catalog_of_rows survey_umlaut hfound (.refl _) (by decide +kernel) (by decide))
  exact ⟨catalog, hscan, hrows⟩

/-- The longest name has twelve bytes, so both kinds start at position 14. The
identifiers stand behind kinds of different lengths. -/
theorem columns_of_table_umlaut :
    ∃ catalog, umlaut.scanSeeded umlautFiles = .ok catalog ∧
      (scan umlautFiles umlaut false).result = .ok (table catalog) ∧
      ∃ lines, table catalog = String.join (lines.map (· ++ "\n")) ∧
        List.Forall₂ (fun t line => Shows t line 14 (15 + t.kind.word.length))
          catalog.targets lines := by
  obtain ⟨catalog, hscan, hrows⟩ := scanSeeded_umlaut
  obtain ⟨hprinted, ⟨lines, htable, hlines⟩, -⟩ := columns_of_table catalog
  have hnames : catalog.names = ["größe", "größe_test"] := by
    have hmap := congrArg (List.map Row.name) hrows
    rwa [List.map_map] at hmap
  have hwidth : nameWidth catalog = 12 := by
    rw [nameWidth, hnames]
    decide +kernel
  refine ⟨catalog, hscan, hprinted _ _ hscan, lines, htable, hlines.imp fun t line h => ?_⟩
  rw [hwidth, Nat.add_right_comm] at h
  exact h

/-- **A library and its test have their identifiers in different columns**: the
words `library` and `test` are written without the blanks that would make them one
length. -/
theorem not_isAligned_table_umlaut :
    ∃ catalog, umlaut.scanSeeded umlautFiles = .ok catalog ∧
      (scan umlautFiles umlaut false).result = .ok (table catalog) ∧
      ¬ IsAligned catalog.targets (table catalog) := by
  obtain ⟨catalog, hscan, hrows⟩ := scanSeeded_umlaut
  refine ⟨catalog, hscan, by rw [result_scan, hscan], ?_⟩
  have hkinds : catalog.targets.map Target.kind = [.library, .test] := by
    have hmap := congrArg (List.map Row.kind) hrows
    rwa [List.map_map] at hmap
  have hmem : ∀ kind ∈ [Target.Kind.library, .test], ∃ t ∈ catalog.targets, t.kind = kind := by
    intro kind hkind
    rw [← hkinds] at hkind
    exact List.mem_map.mp hkind
  rw [isAligned_table_iff]
  intro hsame
  obtain ⟨t, ht, hlibrary⟩ := hmem .library (by decide)
  obtain ⟨u, hu, htest⟩ := hmem .test (by decide)
  have heq := hsame t ht u hu
  rw [hlibrary, htest] at heq
  contradiction

end SolutionTree.Command
