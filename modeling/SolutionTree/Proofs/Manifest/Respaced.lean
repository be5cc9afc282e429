import SolutionTree.Proofs.Manifest.FirstLines
import SolutionTree.Proofs.Text.Blank
import SolutionTree.Proofs.Text.Pieces

/-!
Manifests do not depend on how their lines are spaced.

A text is respaced by other line ends and by blanks at the ends of its lines
(`Respaced`). Each such edit leaves the pieces between the line feeds as they are,
but for the blanks around them (`trimmed_append_withReturns`, `trimmed_atStart`,
`trimmed_atEnd`), and so do any edits together (`Respaced.trimmed_eq`). Nothing more
of a text is looked at when the first lines of its keys are found
(`firstLine?_lines_congr`), so a respaced text is read as the text is, with a byte
order mark before it or without (`parseAt_respaced`).
-/

namespace SolutionTree

open Text

namespace Text

/-! ### Edits -/

/-- Blanks that end no line. -/
def AreSpaces (blanks : List Char) : Prop :=
  ∀ c ∈ blanks, isBlank c = true ∧ c ≠ '\n'

/-- A line starts behind a text. -/
def StartsLine (before : List Char) : Prop :=
  before = [] ∨ ∃ front, before = front ++ ['\n']

/-- A line ends before a text, where a carriage return may belong to the end. -/
def EndsLine (after : List Char) : Prop :=
  after = [] ∨ ∃ rest, after = '\n' :: rest ∨ after = '\r' :: '\n' :: rest

/-- Puts a carriage return before every line feed. -/
def withReturns (cs : List Char) : List Char :=
  cs.flatMap fun c => if c = '\n' then ['\r', '\n'] else [c]

theorem withReturns_cons_feed (cs : List Char) :
    withReturns ('\n' :: cs) = '\r' :: '\n' :: withReturns cs := rfl

theorem withReturns_cons_of_ne {c : Char} (h : c ≠ '\n') (cs : List Char) :
    withReturns (c :: cs) = c :: withReturns cs := by
  rw [withReturns, List.flatMap_cons, if_neg h, List.singleton_append, withReturns]

/-- What a text becomes by any number of edits: a carriage return is put before
every line feed, or blanks at the start or the end of a line. -/
inductive Respaced (text : List Char) : List Char → Prop where
  | same : Respaced text text
  | returns {cs : List Char} : Respaced text cs → Respaced text (withReturns cs)
  | atStart {before blanks after : List Char} : Respaced text (before ++ after) →
      StartsLine before → AreSpaces blanks → Respaced text (before ++ blanks ++ after)
  | atEnd {before blanks after : List Char} : Respaced text (before ++ after) →
      EndsLine after → AreSpaces blanks → Respaced text (before ++ blanks ++ after)

variable {text cs before blanks after : List Char}

/-! ### Pieces without the blanks around them -/

/-- The pieces of a text between its line feeds, without the blanks around them. -/
def trimmed (cs : List Char) : List (List Char) :=
  (cs.splitOn '\n').map trim

/-- A line feed parts the pieces before it from those behind. -/
theorem trimmed_append_cons (cs rest : List Char) :
    trimmed (cs ++ '\n' :: rest) = trimmed cs ++ trimmed rest := by
  rw [trimmed, List.splitOn_append_cons_self, List.map_append, trimmed, trimmed]

theorem trimmed_of_notMem (h : '\n' ∉ cs) : trimmed cs = [trim cs] := by
  rw [trimmed, List.splitOn_eq_singleton h, List.map_singleton]

/-- Blanks before a text belong to its first piece. -/
theorem trimmed_blanks_append (hblanks : AreSpaces blanks) (cs : List Char) :
    trimmed (blanks ++ cs) = trimmed cs := by
  have hnot : '\n' ∉ blanks := fun hmem => (hblanks _ hmem).2 rfl
  by_cases hmem : '\n' ∈ cs
  · obtain ⟨first, rest, rfl, hfirst⟩ := List.eq_append_cons_of_mem hmem
    have hspaced : '\n' ∉ blanks ++ first := by simp [hnot, hfirst]
    rw [← List.append_assoc, trimmed_append_cons, trimmed_append_cons,
      trimmed_of_notMem hspaced, trimmed_of_notMem hfirst,
      trim_blanks_append fun c hc => (hblanks c hc).1]
  · rw [trimmed_of_notMem (by simp [hnot, hmem]), trimmed_of_notMem hmem,
      trim_blanks_append fun c hc => (hblanks c hc).1]

/-- Blanks behind a text belong to its last piece. -/
theorem trimmed_append_blanks (hblanks : AreSpaces blanks) (cs : List Char) :
    trimmed (cs ++ blanks) = trimmed cs := by
  have hnot : '\n' ∉ blanks := fun hmem => (hblanks _ hmem).2 rfl
  by_cases hmem : '\n' ∈ cs
  · obtain ⟨front, last, rfl, hlast⟩ := exists_last_split hmem
    have hspaced : '\n' ∉ last ++ blanks := by simp [hnot, hlast]
    rw [List.append_assoc, List.cons_append, trimmed_append_cons, trimmed_append_cons,
      trimmed_of_notMem hspaced, trimmed_of_notMem hlast,
      trim_append_blanks _ fun c hc => (hblanks c hc).1]
  · rw [trimmed_of_notMem (by simp [hnot, hmem]), trimmed_of_notMem hmem,
      trim_append_blanks _ fun c hc => (hblanks c hc).1]

theorem areSpaces_singleton {c : Char} (hblank : isBlank c = true) (hc : c ≠ '\n') :
    AreSpaces [c] := by
  intro x hx
  rw [List.mem_singleton.mp hx]
  exact ⟨hblank, hc⟩

theorem areSpaces_return : AreSpaces ['\r'] :=
  areSpaces_singleton (by decide) (by decide)

/-! ### Any edits -/

/-- Blanks at the start of a line do not change its piece, up to the blanks around
it. -/
theorem trimmed_atStart (hbefore : StartsLine before) (hblanks : AreSpaces blanks) :
    trimmed (before ++ blanks ++ after) = trimmed (before ++ after) := by
  rcases hbefore with rfl | ⟨front, rfl⟩
  · exact trimmed_blanks_append hblanks after
  · rw [List.append_assoc, List.append_assoc, List.append_assoc, List.singleton_append,
      List.singleton_append, trimmed_append_cons, trimmed_append_cons,
      trimmed_blanks_append hblanks]

/-- Nor do blanks at its end, before a carriage return or behind it. -/
theorem trimmed_atEnd (hafter : EndsLine after) (hblanks : AreSpaces blanks) :
    trimmed (before ++ blanks ++ after) = trimmed (before ++ after) := by
  rcases hafter with rfl | ⟨rest, rfl | rfl⟩
  · simp only [List.append_nil, trimmed_append_blanks hblanks]
  · simp only [trimmed_append_cons, trimmed_append_blanks hblanks]
  · have hreturn := trimmed_append_blanks areSpaces_return
    rw [List.append_cons, List.append_cons before, trimmed_append_cons, trimmed_append_cons,
      hreturn,
      hreturn, trimmed_append_blanks hblanks]

/-- A carriage return before every line feed ends a piece each time. What stands
before the text is on the line that its first characters are on. -/
theorem trimmed_append_withReturns (before cs : List Char) :
    trimmed (before ++ withReturns cs) = trimmed (before ++ cs) := by
  induction cs generalizing before with
  | nil => rfl
  | cons c cs ih =>
    by_cases hc : c = '\n'
    · subst hc
      have hrest := ih []
      rw [List.nil_append, List.nil_append] at hrest
      rw [withReturns_cons_feed, List.append_cons before '\r', trimmed_append_cons,
        trimmed_append_cons, trimmed_append_blanks areSpaces_return, hrest]
    · rw [withReturns_cons_of_ne hc, List.append_cons, ih, ← List.append_cons]

/-- **Edits leave the pieces as they are**, but for the blanks around them. -/
theorem Respaced.trimmed_eq (h : Respaced text cs) : trimmed cs = trimmed text := by
  induction h with
  | same => rfl
  | returns _ ih => exact (trimmed_append_withReturns [] _).trans ih
  | atStart _ hbefore hblanks ih => exact (trimmed_atStart hbefore hblanks).trans ih
  | atEnd _ hafter hblanks ih => exact (trimmed_atEnd hafter hblanks).trans ih

/-- Blanks do not put a byte order mark at the start of a text. -/
theorem head?_append_ne_mark (hblanks : AreSpaces blanks)
    (h : (before ++ after).head? ≠ some byteOrderMark) :
    (before ++ blanks ++ after).head? ≠ some byteOrderMark := by
  have hmark : isBlank byteOrderMark = false := by decide
  cases before with
  | cons c before => exact h
  | nil =>
    cases blanks with
    | nil => exact h
    | cons c blanks =>
      intro hhead
      obtain rfl : c = byteOrderMark := Option.some.inj hhead
      have hblank := (hblanks _ List.mem_cons_self).1
      rw [hmark] at hblank
      contradiction

theorem head?_withReturns_ne_mark (h : cs.head? ≠ some byteOrderMark) :
    (withReturns cs).head? ≠ some byteOrderMark := by
  cases cs with
  | nil => exact h
  | cons c cs =>
    by_cases hc : c = '\n'
    · subst hc
      rw [withReturns_cons_feed]
      simp [byteOrderMark]
    · rw [withReturns_cons_of_ne hc]
      exact h

/-- **Edits put no byte order mark** at the start of a text. -/
theorem Respaced.head?_ne_mark (h : Respaced text cs) (hmark : text.head? ≠ some byteOrderMark) :
    cs.head? ≠ some byteOrderMark := by
  induction h with
  | same => exact hmark
  | returns _ ih => exact head?_withReturns_ne_mark ih
  | atStart _ _ hblanks ih => exact head?_append_ne_mark hblanks ih
  | atEnd _ _ hblanks ih => exact head?_append_ne_mark hblanks ih

end Text

/-! ### First lines -/

namespace Manifest

theorem trim_dropReturn (line : List Char) : trim (dropReturn line) = trim line := by
  unfold dropReturn
  split
  next hlast =>
    obtain ⟨front, rfl⟩ := List.getLast?_eq_some_iff.mp hlast
    rw [List.dropLast_concat, trim_append_blanks front fun c hc => (areSpaces_return c hc).1]
  next => rfl

/-- Which key a line is of, and what its rest says, does not depend on blanks around
the line. -/
theorem restOf?_congr {line line' : List Char} (h : trim line = trim line') (key : Key) :
    restOf? key line = restOf? key line' := by
  rw [restOf?, restOf?, h]

theorem restOf?_nil (key : Key) : restOf? key [] = none := by
  cases key <;> decide

/-- Whether a line is a key's, and what it says, does not depend on the blanks
around it. -/
theorem firstLine?_congr {lines lines' : List (List Char)}
    (h : lines.map trim = lines'.map trim) (key : Key) :
    firstLine? key lines = firstLine? key lines' := by
  induction lines generalizing lines' with
  | nil =>
    rw [List.map_nil, eq_comm, List.map_eq_nil_iff] at h
    rw [h]
  | cons line lines ih =>
    obtain ⟨line', lines', rfl, hline, hlines⟩ := List.map_eq_cons_iff.mp h.symm
    rw [firstLine?, firstLine?, restOf?_congr hline key, ih hlines.symm]

/-- The lines of a text and the pieces between its line feeds have the same first
lines. -/
theorem firstLine?_linesOfPieces (key : Key) (pieces : List (List Char)) :
    firstLine? key (linesOfPieces pieces) = firstLine? key pieces := by
  induction pieces with
  | nil => rfl
  | cons piece pieces ih =>
    cases pieces with
    | nil =>
      rw [linesOfPieces]
      split
      next hempty =>
        rw [List.isEmpty_iff.mp hempty, firstLine?, firstLine?, restOf?_nil]
        rfl
      next => rfl
    | cons next pieces =>
      rw [linesOfPieces_cons_cons, firstLine?, ih, restOf?_congr (trim_dropReturn piece) key,
        ← firstLine?]

/-- Texts that are the same up to blanks around lines have the same first lines.
Lines that are nothing but blanks count for no key. -/
theorem firstLine?_lines_congr {cs cs' : List Char} (h : trimmed cs = trimmed cs') (key : Key) :
    firstLine? key (lines cs) = firstLine? key (lines cs') := by
  rw [lines, lines, firstLine?_linesOfPieces, firstLine?_linesOfPieces, firstLine?_congr h]

/-- **A respaced text is read as the text is**: with the same manifest or the same
error, on the same line, and with a byte order mark before it as without one. -/
theorem parseAt_respaced (base : IncludeBase) (path : Path) {text : String} {cs : List Char}
    (hmark : text.toList.head? ≠ some byteOrderMark) (h : Respaced text.toList cs) :
    parseAt base path (String.ofList cs) = parseAt base path text ∧
      parseAt base path (String.ofList (byteOrderMark :: cs)) = parseAt base path text := by
  have hlines : linesOf text = lines text.toList := by
    rw [linesOf, withoutMark_of_head? hmark]
  have hplain : linesOf (String.ofList cs) = lines cs := by
    rw [linesOf, String.toList_ofList, withoutMark_of_head? (h.head?_ne_mark hmark)]
  have hmarked : linesOf (String.ofList (byteOrderMark :: cs)) = lines cs := by
    rw [linesOf, String.toList_ofList, withoutMark_cons_mark]
  have hsame : ∀ text', linesOf text' = lines cs →
      parseAt base path text' = parseAt base path text := by
    intro text' htext'
    rw [parseAt, parseAt]
    congr 1
    refine parse_congr fun key i rest => ?_
    rw [← firstLine?_eq_some_iff, ← firstLine?_eq_some_iff, htext', hlines,
      firstLine?_lines_congr h.trimmed_eq]
  exact ⟨hsame _ hplain, hsame _ hmarked⟩

/-- The lines of `refused` with other ends, and with a no-break space, a tab and a
space put in. -/
def respaced : String :=
  "\u00A0CFLAGS := -g\r\n\tDEPENDS a b\r\nEXE := two names\r\n "

theorem respaced_refused : Respaced refused.toList respaced.toList := by
  -- A tab before the second line, then other line ends, and then what is put around the text.
  have htab : ∀ front back, refused.toList = front ++ back → StartsLine front →
      Respaced refused.toList (front ++ ['\t'] ++ back) := by
    intro front back heq hstarts
    exact .atStart (heq ▸ .same) hstarts (areSpaces_singleton (by decide) (by decide))
  have haround : ∀ cs, Respaced refused.toList cs →
      Respaced refused.toList ([] ++ ['\u00A0'] ++ cs ++ [' '] ++ []) := by
    intro cs h
    refine .atEnd ?_ (.inl rfl) (areSpaces_singleton (by decide) (by decide))
    rw [List.append_nil]
    exact .atStart h (.inl rfl) (areSpaces_singleton (by decide) (by decide))
  have hspaced := haround _ (.returns (htab "CFLAGS := -g\n".toList
    "DEPENDS a b\nEXE := two names\n".toList (by decide +kernel)
    (.inr ⟨"CFLAGS := -g".toList, by decide +kernel⟩)))
  have heq : respaced.toList = [] ++ ['\u00A0'] ++ withReturns ("CFLAGS := -g\n".toList ++ ['\t'] ++
      "DEPENDS a b\nEXE := two names\n".toList) ++ [' '] ++ [] := by
    decide +kernel
  rw [heq]
  exact hspaced

/-- Behind a byte order mark the second line is refused as it was. -/
theorem parseAt_respaced_refused :
    parseAt ⟨⟨"/"⟩, ⟨"/bin"⟩⟩ ⟨"build.mk"⟩ (String.ofList (byteOrderMark :: respaced.toList)) =
        .error (.manifestMalformed ⟨"build.mk"⟩ 2 (Problem.missingOperator .depends).message) ∧
      parseAt ⟨⟨"/"⟩, ⟨"/bin"⟩⟩ ⟨"build.mk"⟩ (String.ofList respaced.toList) =
        parseAt ⟨⟨"/"⟩, ⟨"/bin"⟩⟩ ⟨"build.mk"⟩ refused := by
  have hmark : refused.toList.head? ≠ some byteOrderMark := by decide +kernel
  have hrefused : parseAt ⟨⟨"/"⟩, ⟨"/bin"⟩⟩ ⟨"build.mk"⟩ refused =
      .error (.manifestMalformed ⟨"build.mk"⟩ 2 (Problem.missingOperator .depends).message) := by
    decide +kernel
  obtain ⟨hplain, hmarked⟩ :=
    parseAt_respaced ⟨⟨"/"⟩, ⟨"/bin"⟩⟩ ⟨"build.mk"⟩ hmark respaced_refused
  exact ⟨hmarked.trans hrefused, hplain⟩

end Manifest

end SolutionTree
