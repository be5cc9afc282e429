import SolutionTree.Proofs.Manifest.Values

/-!
A manifest says what the first line of each key says.

`Draft.Reads` is what a draft knows of the lines that were read: which keys they
have, and the values that the first lines of these give. One more line keeps it or
is malformed (`reads_of_addLine`, `malformed_of_addLine`), so a whole text is read
for its first lines, or refused for the earliest of them that is malformed
(`parseAt_firstLines`).
-/

namespace SolutionTree.Manifest

open Text

/-! ### What first lines come to -/

/-- The values of keys are those that their first lines give; a key without one has
no value. -/
def Says (lines : List (List Char)) (values : Key → Option (List Char)) : Prop :=
  ∀ key value, values key = some value ↔ ∃ i rest, FirstLine key lines i rest ∧ Assigns rest value

/-- The error of the earliest first line that is malformed; lines are counted from
one. -/
inductive EarliestProblem (lines : List (List Char)) (e : ParseError) : Prop where
  | intro {key : Key} {i : Nat} {rest : List Char} : FirstLine key lines i rest →
      Malformed key rest e.problem → e.line = i + 1 →
      (∀ key' i' rest' problem', FirstLine key' lines i' rest' → Malformed key' rest' problem' →
        i ≤ i') → EarliestProblem lines e

/-- No first line is malformed. -/
def WellFormed (lines : List (List Char)) : Prop :=
  ∀ key i rest problem, FirstLine key lines i rest → ¬ Malformed key rest problem

/-- The values that first lines give. -/
def valuesOf (lines : List (List Char)) (key : Key) : Option (List Char) :=
  (firstLine? key lines).bind fun found => value? found.2

section Determined

variable {key key' : Key} {lines : List (List Char)} {i : Nat} {rest rest' : List Char}

/-- There are values for every list of lines. -/
theorem says_valuesOf (lines : List (List Char)) : Says lines (valuesOf lines) := by
  intro key value
  simp [valuesOf, Option.bind_eq_some_iff, firstLine?_eq_some_iff, value?_eq_some_iff]

/-- Lines say one value for a key at most. -/
theorem Says.eq_valuesOf {values : Key → Option (List Char)} (h : Says lines values) :
    values = valuesOf lines := by
  funext key
  apply Option.ext
  intro value
  rw [h key value, says_valuesOf lines key value]

/-- The value for the name of an executable has one word, or its line would be
malformed. -/
theorem WellFormed.exists_name (h : WellFormed lines) {value : List Char}
    (hvalue : valuesOf lines .exe = some value) : ∃ name, HasNames value [name] := by
  obtain ⟨i, rest, hfirst, hgives⟩ := (says_valuesOf lines .exe value).mp hvalue
  have hsound := h .exe i rest
  match hnames : tokens value with
  | [] => exact absurd (.missingName rfl hgives (hasNames_iff.mpr hnames)) (hsound _ hfirst)
  | [name] => exact ⟨name, hasNames_iff.mpr hnames⟩
  | first :: second :: more =>
    exact absurd (.severalNames rfl hgives (hasNames_iff.mpr hnames) (by simp)) (hsound _ hfirst)

theorem FirstLine.exists_line (h : FirstLine key lines i rest) :
    ∃ line, lines[i]? = some line ∧ IsLineOf key line rest := by
  obtain ⟨rfl, rfl, hline, -⟩ := h
  exact ⟨_, by simp, hline⟩

/-- A line is of one key at most, since the token of a key ends where the key does.
-/
theorem IsLineOf.unique {line : List Char} (h : IsLineOf key line rest)
    (h' : IsLineOf key' line rest') : key = key' ∧ rest = rest' := by
  have hkey := key?_eq_some_iff.mpr ⟨trims_iff.mp h.trims, h.ends⟩
  have hkey' := key?_eq_some_iff.mpr ⟨trims_iff.mp h'.trims, h'.ends⟩
  exact Prod.mk.inj (Option.some.inj (hkey.symm.trans hkey'))

/-- No line is the first one of two keys. -/
theorem FirstLine.unique (h : FirstLine key lines i rest) (h' : FirstLine key' lines i rest') :
    key = key' ∧ rest = rest' := by
  obtain ⟨line, hline, hrest⟩ := h.exists_line
  obtain ⟨line', hline', hrest'⟩ := h'.exists_line
  obtain rfl := Option.some.inj (hline.symm.trans hline')
  exact hrest.unique hrest'

/-- A line has one problem at most. -/
theorem Malformed.unique {problem problem' : Problem} (h : Malformed key rest problem)
    (h' : Malformed key rest problem') : problem = problem' := by
  cases hvalue : value? rest with
  | none =>
    have hnone := value?_eq_none_iff.mp hvalue
    have heq : ∀ {p}, Malformed key rest p → p = .missingOperator key := by
      rintro p (- | ⟨-, hgives, -⟩ | ⟨-, hgives, -⟩)
      · rfl
      · exact absurd hgives (hnone _)
      · exact absurd hgives (hnone _)
    rw [heq h, heq h']
  | some value =>
    have hgives := value?_eq_some_iff.mp hvalue
    have herror := (malformed_iff_of_assigns hgives ⟨⟨""⟩, ⟨""⟩⟩ {}).mp h
    have herror' := (malformed_iff_of_assigns hgives ⟨⟨""⟩, ⟨""⟩⟩ {}).mp h'
    exact Except.error.inj (herror.symm.trans herror')

/-- A text has one error at most: no line before the one that is reported is
malformed. -/
theorem EarliestProblem.unique {e e' : ParseError} (h : EarliestProblem lines e)
    (h' : EarliestProblem lines e') : e = e' := by
  obtain ⟨hfirst, hmalformed, hline, hleast⟩ := h
  obtain ⟨hfirst', hmalformed', hline', hleast'⟩ := h'
  obtain rfl := Nat.le_antisymm (hleast _ _ _ _ hfirst' hmalformed')
    (hleast' _ _ _ _ hfirst hmalformed)
  obtain ⟨rfl, rfl⟩ := hfirst.unique hfirst'
  cases e
  cases e'
  simp only at hline hline' hmalformed hmalformed'
  rw [hline, hline', hmalformed.unique hmalformed']

end Determined

section Append

variable {key : Key} {front : List (List Char)} {i : Nat} {rest : List Char}

theorem FirstLine.append (h : FirstLine key front i rest) (back : List (List Char)) :
    FirstLine key (front ++ back) i rest := by
  rw [← firstLine?_eq_some_iff] at h ⊢
  rw [firstLine?_append, h, Option.some_or]

/-- A first line stands among the lines in front, or comes after them all. -/
theorem FirstLine.of_append {back : List (List Char)} (h : FirstLine key (front ++ back) i rest) :
    FirstLine key front i rest ∨ front.length ≤ i := by
  rw [← firstLine?_eq_some_iff, firstLine?_append, Option.or_eq_some_iff] at h
  rcases h with hfront | ⟨-, hback⟩
  · exact .inl (firstLine?_eq_some_iff.mp hfront)
  · obtain ⟨found, -, heq⟩ := Option.map_eq_some_iff.mp hback
    obtain ⟨rfl, -⟩ := Prod.mk.inj heq
    exact .inr (Nat.le_add_left _ _)

end Append

/-! ### One line -/

variable {base : IncludeBase} {draft draft' : Draft} {lines : List (List Char)} {line : List Char}

/-- What a draft knows of the lines that were read into it. -/
structure Draft.Reads (base : IncludeBase) (lines : List (List Char)) (draft : Draft) : Prop where
  seen_iff : ∀ key, key ∈ draft.seen ↔ ∃ found, firstLine? key lines = some found
  wellFormed : WellFormed lines
  manifest_eq : draft.manifest = ofValues base (valuesOf lines)

theorem Draft.reads_nil (base : IncludeBase) : Draft.Reads base [] {} where
  seen_iff := by simp [firstLine?]
  wellFormed := by
    intro key i rest problem h
    rw [← firstLine?_eq_some_iff] at h
    contradiction
  manifest_eq := rfl

/-- All that a line does: it is no key's first one and is passed over, or it gives a
value. -/
theorem Draft.addLine_eq_ok (h : draft.addLine base line = .ok draft') :
    (draft' = draft ∧ ∀ key rest, restOf? key line = some rest → key ∈ draft.seen) ∨
    ∃ key rest value manifest, key ∉ draft.seen ∧ restOf? key line = some rest ∧
      (∀ other, other ≠ key → restOf? other line = none) ∧ Assigns rest value ∧
      assign base draft.manifest key value = .ok manifest ∧
      draft' = ⟨key :: draft.seen, manifest⟩ := by
  rw [addLine] at h
  cases hkey : key? (trim line) with
  | none =>
    simp only [hkey] at h
    refine .inl ⟨(Except.ok.inj h).symm, ?_⟩
    intro key rest hrest
    simp [restOf?, hkey] at hrest
  | some found =>
    obtain ⟨key, rest⟩ := found
    simp only [hkey] at h
    by_cases hseen : key ∈ draft.seen
    · rw [if_pos hseen] at h
      refine .inl ⟨(Except.ok.inj h).symm, ?_⟩
      intro other rest' hrest
      simp only [restOf?, hkey] at hrest
      split at hrest
      · next heq => exact heq ▸ hseen
      · contradiction
    · rw [if_neg hseen] at h
      cases hvalue : value? rest with
      | none => simp [hvalue] at h
      | some value =>
        cases hassign : assign base draft.manifest key value with
        | error problem => simp [hvalue, hassign] at h
        | ok manifest =>
          simp only [hvalue, hassign] at h
          refine .inr ⟨key, rest, value, manifest, hseen, by simp [restOf?, hkey], ?_,
            value?_eq_some_iff.mp hvalue, hassign, (Except.ok.inj h).symm⟩
          intro other hother
          simp [restOf?, hkey, Ne.symm hother]

/-- A line is refused when it is the first one of a key and malformed. -/
theorem Draft.addLine_eq_error {problem : Problem} (h : draft.addLine base line = .error problem) :
    ∃ key rest, key ∉ draft.seen ∧ restOf? key line = some rest ∧ Malformed key rest problem := by
  rw [addLine] at h
  cases hkey : key? (trim line) with
  | none => simp [hkey] at h
  | some found =>
    obtain ⟨key, rest⟩ := found
    have hrest : restOf? key line = some rest := by simp [restOf?, hkey]
    simp only [hkey] at h
    by_cases hseen : key ∈ draft.seen
    · simp [hseen] at h
    · rw [if_neg hseen] at h
      refine ⟨key, rest, hseen, hrest, ?_⟩
      cases hvalue : value? rest with
      | none =>
        simp only [hvalue] at h
        rw [← Except.error.inj h]
        exact .missingOperator (value?_eq_none_iff.mp hvalue)
      | some value =>
        have hgives := value?_eq_some_iff.mp hvalue
        cases hassign : assign base draft.manifest key value with
        | ok manifest => simp [hvalue, hassign] at h
        | error problem' =>
          simp only [hvalue, hassign] at h
          rw [← Except.error.inj h]
          exact (malformed_iff_of_assigns hgives base draft.manifest).mpr hassign

/-- An assignment puts one more value beside those that a manifest is made of. -/
theorem assign_ofValues {values : Key → Option (List Char)} {key : Key} {value : List Char}
    {m : Manifest} (h : assign base (ofValues base values) key value = .ok m) :
    m = ofValues base fun other => if other = key then some value else values other := by
  cases key with
  | exe =>
    match hnames : tokens value with
    | [] => simp [assign, hnames] at h
    | [name] =>
      simp only [assign, hnames] at h
      rw [← Except.ok.inj h]
      simp [ofValues, hnames]
    | first :: second :: names => simp [assign, hnames] at h
  | depends => exact (Except.ok.inj h).symm
  | includeDirs => exact (Except.ok.inj h).symm
  | cflags => exact (Except.ok.inj h).symm
  | runArgs => exact (Except.ok.inj h).symm

namespace Draft

theorem Reads.firstLine?_eq_none {key : Key} (hreads : draft.Reads base lines)
    (hfresh : key ∉ draft.seen) : firstLine? key lines = none := by
  rw [Option.eq_none_iff_forall_ne_some]
  intro found hfound
  exact hfresh ((hreads.seen_iff key).mpr ⟨found, hfound⟩)

/-- A draft knows the same of lines with the same first ones. -/
theorem Reads.congr {lines' : List (List Char)} (hreads : draft.Reads base lines)
    (hsame : ∀ key, firstLine? key lines' = firstLine? key lines) : draft.Reads base lines' where
  seen_iff := by
    intro key
    rw [hreads.seen_iff, hsame]
  wellFormed := by
    intro key i rest problem hfirst
    rw [← firstLine?_eq_some_iff, hsame, firstLine?_eq_some_iff] at hfirst
    exact hreads.wellFormed key i rest problem hfirst
  manifest_eq := by
    have hvalues : valuesOf lines' = valuesOf lines := by
      funext key
      rw [valuesOf, valuesOf, hsame]
    rw [hreads.manifest_eq, hvalues]

/-- The first line of one more key gives the draft its value. -/
theorem Reads.assign {lines' : List (List Char)} {key : Key} {i : Nat} {rest value : List Char}
    {manifest : Manifest} (hreads : draft.Reads base lines)
    (hkey : firstLine? key lines' = some (i, rest))
    (hsame : ∀ other, other ≠ key → firstLine? other lines' = firstLine? other lines)
    (hgives : Assigns rest value)
    (hassign : Manifest.assign base draft.manifest key value = .ok manifest) :
    Draft.Reads base lines' ⟨key :: draft.seen, manifest⟩ where
  seen_iff := by
    intro other
    by_cases hne : other = key
    · subst hne
      simp [hkey]
    · rw [hsame other hne, List.mem_cons, or_iff_right hne]
      exact hreads.seen_iff other
  wellFormed := by
    intro other j rest' problem hfirst
    rw [← firstLine?_eq_some_iff] at hfirst
    by_cases hne : other = key
    · subst hne
      obtain ⟨rfl, rfl⟩ := Prod.mk.inj (Option.some.inj (hkey.symm.trans hfirst))
      rw [malformed_iff_of_assigns hgives base draft.manifest, hassign]
      simp
    · rw [hsame other hne, firstLine?_eq_some_iff] at hfirst
      exact hreads.wellFormed other j rest' problem hfirst
  manifest_eq := by
    have hvalues : valuesOf lines' =
        fun other => if other = key then some value else valuesOf lines other := by
      funext other
      by_cases hne : other = key
      · subst hne
        simp [valuesOf, hkey, value?_eq_some_iff.mpr hgives]
      · rw [if_neg hne, valuesOf, valuesOf, hsame other hne]
    rw [hreads.manifest_eq] at hassign
    rw [assign_ofValues hassign, hvalues]

/-- **One more line** is read as the lines before it were. -/
theorem reads_of_addLine (hreads : draft.Reads base lines)
    (h : draft.addLine base line = .ok draft') : draft'.Reads base (lines ++ [line]) := by
  rcases addLine_eq_ok h with ⟨rfl, hseen⟩ | ⟨key, rest, value, manifest, hfresh, hrest, hother,
    hgives, hassign, rfl⟩
  · refine hreads.congr fun key => ?_
    rw [firstLine?_concat]
    cases hrest : restOf? key line with
    | none => simp
    | some rest =>
      obtain ⟨found, hfound⟩ := (hreads.seen_iff key).mp (hseen key rest hrest)
      rw [hfound, Option.some_or]
  · have hkey : firstLine? key (lines ++ [line]) = some (lines.length, rest) := by
      rw [firstLine?_concat, hreads.firstLine?_eq_none hfresh, hrest]
      rfl
    refine hreads.assign hkey (fun other hne => ?_) hgives hassign
    rw [firstLine?_concat, hother other hne]
    simp

/-- A line that is refused is the first of its key, and it is malformed: no line of
a key that was met before is looked at. -/
theorem malformed_of_addLine {problem : Problem} (hreads : draft.Reads base lines)
    (h : draft.addLine base line = .error problem) :
    ∃ key rest, FirstLine key (lines ++ [line]) lines.length rest ∧ Malformed key rest problem := by
  obtain ⟨key, rest, hfresh, hrest, hmalformed⟩ := addLine_eq_error h
  refine ⟨key, rest, ?_, hmalformed⟩
  rw [← firstLine?_eq_some_iff, firstLine?_concat, hreads.firstLine?_eq_none hfresh, hrest]
  rfl

/-! ### All lines -/

/-- After more lines a draft knows of all of them what it knew of the first ones.
The induction is on the lines that are still to be read. -/
theorem reads_of_addLines {number : Nat} {more : List (List Char)}
    (hreads : draft.Reads base lines) (h : addLines base draft number more = .ok draft') :
    draft'.Reads base (lines ++ more) := by
  induction more generalizing draft lines number with
  | nil =>
    rw [List.append_nil, ← Except.ok.inj h]
    exact hreads
  | cons line more ih =>
    rw [addLines] at h
    cases hline : draft.addLine base line with
    | error problem => simp [hline] at h
    | ok next =>
      simp only [hline] at h
      rw [List.append_cons]
      exact ih (reads_of_addLine hreads hline) h

/-- The error of lines is that of the earliest malformed first line: none before it
was refused. -/
theorem earliestProblem_of_addLines {e : ParseError} {more : List (List Char)}
    (hreads : draft.Reads base lines)
    (h : addLines base draft (lines.length + 1) more = .error e) :
    EarliestProblem (lines ++ more) e := by
  induction more generalizing draft lines with
  | nil => contradiction
  | cons line more ih =>
    rw [addLines] at h
    rw [List.append_cons]
    cases hline : draft.addLine base line with
    | error problem =>
      simp only [hline] at h
      obtain rfl := Except.error.inj h
      obtain ⟨key, rest, hfirst, hmalformed⟩ := malformed_of_addLine hreads hline
      refine .intro (hfirst.append more) hmalformed rfl ?_
      -- What is earlier was read, and so it is not malformed.
      intro key' i' rest' problem' hfirst' hmalformed'
      rw [← List.append_cons] at hfirst'
      rcases hfirst'.of_append with hearlier | hlater
      · exact absurd hmalformed' (hreads.wellFormed key' i' rest' problem' hearlier)
      · exact hlater
    | ok next =>
      simp only [hline] at h
      have hnumber : lines.length + 1 + 1 = (lines ++ [line]).length + 1 := by simp
      rw [hnumber] at h
      exact ih (reads_of_addLine hreads hline) h

end Draft

/-! ### Whole texts -/

/-- A text is refused for its earliest problem, or it is well-formed and makes a
manifest of its values. -/
theorem parse_outcome (base : IncludeBase) (text : String) :
    (∃ e, parse base text = .error e ∧ EarliestProblem (linesOf text) e) ∨
      parse base text = .ok (ofValues base (valuesOf (linesOf text))) ∧
        WellFormed (linesOf text) := by
  have hstart := Draft.reads_nil base
  rw [parse, ← linesOf]
  cases hlines : Draft.addLines base {} 1 (linesOf text) with
  | error e => exact .inl ⟨e, rfl, Draft.earliestProblem_of_addLines hstart hlines⟩
  | ok draft =>
    have hreads := Draft.reads_of_addLines hstart hlines
    exact .inr ⟨congrArg Except.ok hreads.manifest_eq, hreads.wellFormed⟩

/-- Texts with the same first lines are read alike. -/
theorem parse_congr {text text' : String}
    (h : ∀ key i rest, FirstLine key (linesOf text') i rest ↔ FirstLine key (linesOf text) i rest) :
    parse base text' = parse base text := by
  have hfirst : ∀ key, firstLine? key (linesOf text') = firstLine? key (linesOf text) := by
    intro key
    apply Option.ext
    rintro ⟨i, rest⟩
    rw [firstLine?_eq_some_iff, firstLine?_eq_some_iff, h]
  have hearliest : ∀ e, EarliestProblem (linesOf text') e ↔ EarliestProblem (linesOf text) e := by
    intro e
    constructor
    · rintro ⟨hline, hmalformed, hnumber, hleast⟩
      exact ⟨(h _ _ _).mp hline, hmalformed, hnumber,
        fun key i rest problem hline' => hleast key i rest problem ((h _ _ _).mpr hline')⟩
    · rintro ⟨hline, hmalformed, hnumber, hleast⟩
      exact ⟨(h _ _ _).mpr hline, hmalformed, hnumber,
        fun key i rest problem hline' => hleast key i rest problem ((h _ _ _).mp hline')⟩
  rcases parse_outcome base text with ⟨e, he, hproblem⟩ | ⟨hok, hwf⟩
  · rcases parse_outcome base text' with ⟨e', he', hproblem'⟩ | ⟨-, hwf'⟩
    · rw [he, he', ((hearliest e').mp hproblem').unique hproblem]
    · obtain ⟨hline, hmalformed, -, -⟩ := hproblem
      exact absurd hmalformed (hwf' _ _ _ _ ((h _ _ _).mpr hline))
  · rcases parse_outcome base text' with ⟨e', -, hline, hmalformed, -, -⟩ | ⟨hok', -⟩
    · exact absurd hmalformed (hwf _ _ _ _ ((h _ _ _).mp hline))
    · have hvalues : valuesOf (linesOf text') = valuesOf (linesOf text) := by
        funext key
        rw [valuesOf, valuesOf, hfirst]
      rw [hok, hok', hvalues]

/-- **A manifest says what the first line of each key says.** It is refused when one
of these lines is malformed, and then for the earliest one that is; otherwise it is
made of the values of these lines; and no other line of the text matters. -/
theorem parseAt_firstLines (base : IncludeBase) (path : Path) (text : String) :
    ∃ lines, HasLines text lines ∧
      ((∃ fault, parseAt base path text = .error fault) ↔
        ∃ key i rest problem, FirstLine key lines i rest ∧ Malformed key rest problem) ∧
      (∀ fault, parseAt base path text = .error fault →
        ∃ e, EarliestProblem lines e ∧ fault = .manifestMalformed path e.line e.problem.message) ∧
      (∀ m, parseAt base path text = .ok m ↔
        WellFormed lines ∧ ∃ values, Says lines values ∧ MadeOf base values m) ∧
      ∀ text' lines', HasLines text' lines' →
        (∀ key i rest, FirstLine key lines' i rest ↔ FirstLine key lines i rest) →
        parseAt base path text' = parseAt base path text := by
  refine ⟨linesOf text, hasLines_iff.mpr rfl, ?_⟩
  have hcongr : ∀ text' lines', HasLines text' lines' →
      (∀ key i rest, FirstLine key lines' i rest ↔ FirstLine key (linesOf text) i rest) →
      parseAt base path text' = parseAt base path text := by
    intro text' lines' hlines' h
    obtain rfl := hasLines_iff.mp hlines'
    rw [parseAt, parseAt, parse_congr h]
  rcases parse_outcome base text with ⟨e, he, hearliest⟩ | ⟨hok, hwf⟩
  · have herror : parseAt base path text =
        .error (.manifestMalformed path e.line e.problem.message) := by
      rw [parseAt, he]
      rfl
    have hmalformed : ∃ key i rest problem,
        FirstLine key (linesOf text) i rest ∧ Malformed key rest problem := by
      obtain ⟨hfirst, hmalformed, -, -⟩ := hearliest
      exact ⟨_, _, _, _, hfirst, hmalformed⟩
    refine ⟨⟨fun _ => hmalformed, fun _ => ⟨_, herror⟩⟩, ?_, ?_, hcongr⟩
    · intro fault h
      exact ⟨e, hearliest, Except.error.inj (h.symm.trans herror)⟩
    · intro m
      rw [herror]
      constructor
      · intro h
        contradiction
      · rintro ⟨hwf, -⟩
        obtain ⟨key, i, rest, problem, hfirst, hmalformed⟩ := hmalformed
        exact absurd hmalformed (hwf key i rest problem hfirst)
  · have hread : parseAt base path text = .ok (ofValues base (valuesOf (linesOf text))) := by
      rw [parseAt, hok]
      rfl
    have hmade : MadeOf base (valuesOf (linesOf text)) (ofValues base (valuesOf (linesOf text))) :=
      madeOf_ofValues fun _ => hwf.exists_name
    refine ⟨⟨?_, ?_⟩, ?_, ?_, hcongr⟩
    · rintro ⟨fault, h⟩
      rw [hread] at h
      contradiction
    · rintro ⟨key, i, rest, problem, hfirst, hmalformed⟩
      exact absurd hmalformed (hwf key i rest problem hfirst)
    · intro fault h
      rw [hread] at h
      contradiction
    · intro m
      rw [hread]
      constructor
      · intro h
        obtain rfl := Except.ok.inj h
        exact ⟨hwf, _, says_valuesOf (linesOf text), hmade⟩
      · rintro ⟨-, values, hgiven, hvalues⟩
        rw [hgiven.eq_valuesOf] at hvalues
        rw [hmade.unique hvalues]

/-- A text with a byte order mark, a line with another end, and second lines of two
keys that are malformed; and one without any of these. -/
def marked : String :=
  "\uFEFFEXE := tool\nEXE two names\n  DEPENDS= a b a\nCFLAGS := -g  -O2 \r\n" ++
    "INCLUDE_DIRS = $(ROOT)\\/inc x\nRUN_ARGS =\nCFLAGS\n"

def unmarked : String :=
  "EXE := tool\nEXECUTE\nDEPENDS= a b a\nCFLAGS := -g  -O2\nINCLUDE_DIRS = $(ROOT)\\/inc x\nRUN_ARGS ="

theorem firstLines_marked : ∀ key,
    firstLine? key (linesOf unmarked) = firstLine? key (linesOf marked) := by
  -- One evaluation for all keys: both texts are cut into lines once.
  have hall : Key.all.map (firstLine? · (linesOf unmarked)) =
      Key.all.map (firstLine? · (linesOf marked)) := by decide +kernel
  intro key
  have hmem : key ∈ Key.all := by cases key <;> decide
  exact List.map_inj_left.mp hall key hmem

/-- What both of them say: arguments keep the blanks between them, and none are
none. -/
def markedManifest : Manifest where
  executable := some "tool"
  dependencies := ["a", "b", "a"]
  includeDirs := ["../inc", "x"]
  compilerArgs := some "-g  -O2"

/-- A text whose second line is malformed for one key, and its third one for
another. -/
def refused : String := "CFLAGS := -g\nDEPENDS a b\nEXE := two names\n"

/-- The text with a byte order mark is read as its first lines say, arguments and
include directories included; and the malformed one is refused for its second line.
-/
theorem parseAt_firstLines_marked :
    (∃ lines, HasLines marked lines ∧
      parseAt ⟨⟨"/"⟩, ⟨"/bin"⟩⟩ ⟨"build.mk"⟩ marked = .ok markedManifest ∧
      ∃ values, Says lines values ∧ MadeOf ⟨⟨"/"⟩, ⟨"/bin"⟩⟩ values markedManifest) ∧
    (∃ lines e, HasLines refused lines ∧ EarliestProblem lines e ∧ e.line = 2 ∧
      parseAt ⟨⟨"/"⟩, ⟨"/bin"⟩⟩ ⟨"build.mk"⟩ refused =
        .error (.manifestMalformed ⟨"build.mk"⟩ e.line e.problem.message)) ∧
    unmarked ≠ marked ∧
    parseAt ⟨⟨"/"⟩, ⟨"/bin"⟩⟩ ⟨"build.mk"⟩ unmarked =
      parseAt ⟨⟨"/"⟩, ⟨"/bin"⟩⟩ ⟨"build.mk"⟩ marked := by
  have hok : parseAt ⟨⟨"/"⟩, ⟨"/bin"⟩⟩ ⟨"build.mk"⟩ marked = .ok markedManifest := by decide +kernel
  have herror : parseAt ⟨⟨"/"⟩, ⟨"/bin"⟩⟩ ⟨"build.mk"⟩ refused =
      .error (.manifestMalformed ⟨"build.mk"⟩ 2 (Problem.missingOperator .depends).message) := by
    decide +kernel
  obtain ⟨lines, hlines, -, -, hmade, hother⟩ :=
    parseAt_firstLines ⟨⟨"/"⟩, ⟨"/bin"⟩⟩ ⟨"build.mk"⟩ marked
  obtain ⟨lines', hlines', -, hproblem, -, -⟩ :=
    parseAt_firstLines ⟨⟨"/"⟩, ⟨"/bin"⟩⟩ ⟨"build.mk"⟩ refused
  have hsame : ∀ key i rest,
      FirstLine key (linesOf unmarked) i rest ↔ FirstLine key lines i rest := by
    intro key i rest
    rw [← hasLines_iff.mp hlines, ← firstLine?_eq_some_iff, ← firstLine?_eq_some_iff,
      firstLines_marked]
  obtain ⟨e, hearliest, hfault⟩ := hproblem _ herror
  have hline : 2 = e.line := (Fault.manifestMalformed.inj hfault).2.1
  exact ⟨⟨lines, hlines, hok, ((hmade _).mp hok).2⟩,
    ⟨lines', e, hlines', hearliest, hline.symm, hfault ▸ herror⟩, by decide +kernel,
    hother unmarked _ (hasLines_iff.mpr rfl) hsame⟩

end SolutionTree.Manifest
