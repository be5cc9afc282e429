import Mathlib.Data.List.Basic
import SolutionTree.Text.Lines

/-!
The lines of a text.

`HasLines` says what the lines of a text are, from the front: a line feed ends one,
together with a carriage return right before it, and what stands behind the last
line feed is a line if there is anything. `lines` finds these (`hasLines_iff`).
-/

namespace SolutionTree.Text

/-- A text has some lines, from the front. -/
inductive HasLines : List Char → List (List Char) → Prop where
  | nil : HasLines [] []
  | last {line : List Char} : line ≠ [] → '\n' ∉ line → HasLines line [line]
  | feed {line rest : List Char} {found : List (List Char)} :
      '\n' ∉ line → line.getLast? ≠ some '\r' → HasLines rest found →
      HasLines (line ++ '\n' :: rest) (line :: found)
  | returnFeed {line rest : List Char} {found : List (List Char)} :
      '\n' ∉ line → HasLines rest found → HasLines (line ++ '\r' :: '\n' :: rest) (line :: found)

variable {line cs : List Char} {found : List (List Char)}

/-- A line feed ends a line; a carriage return right before it belongs to the end.
-/
theorem lines_append_feed (h : '\n' ∉ line) (rest : List Char) :
    lines (line ++ '\n' :: rest) = dropReturn line :: lines rest := by
  obtain ⟨piece, pieces, hpieces⟩ := List.exists_cons_of_ne_nil (List.splitOn_ne_nil '\n' rest)
  rw [lines, lines, List.splitOn_append_cons_self, List.splitOn_eq_singleton h, hpieces]
  rfl

theorem lines_of_notMem (hne : line ≠ []) (h : '\n' ∉ line) : lines line = [line] := by
  rw [lines, List.splitOn_eq_singleton h]
  simp [linesOfPieces, hne]

theorem dropReturn_concat (line : List Char) : dropReturn (line ++ ['\r']) = line := by
  simp [dropReturn]

/-- A line that ends in a line feed has its end in one of two ways. -/
theorem HasLines.cons {rest : List Char} (hline : '\n' ∉ line) (h : HasLines rest found) :
    HasLines (line ++ '\n' :: rest) (dropReturn line :: found) := by
  by_cases hreturn : line.getLast? = some '\r'
  · obtain ⟨front, rfl⟩ := List.getLast?_eq_some_iff.mp hreturn
    rw [dropReturn_concat, List.append_assoc]
    exact .returnFeed (fun hmem => hline (List.mem_append_left _ hmem)) h
  · rw [dropReturn, if_neg hreturn]
    exact .feed hline hreturn h

/-- A text has lines whatever it is. What is no line feed is gathered until one
comes or the text ends. -/
theorem exists_hasLines (cs : List Char) : ∃ found, HasLines cs found := by
  have gathered : ∀ line : List Char, '\n' ∉ line → ∃ found, HasLines (line ++ cs) found := by
    induction cs with
    | nil =>
      intro line hline
      rw [List.append_nil]
      by_cases hne : line = []
      · exact ⟨[], hne ▸ .nil⟩
      · exact ⟨[line], .last hne hline⟩
    | cons c cs ih =>
      intro line hline
      by_cases hc : c = '\n'
      · subst hc
        obtain ⟨found, hfound⟩ := ih [] (by simp)
        exact ⟨_, .cons hline hfound⟩
      · rw [List.append_cons]
        exact ih (line ++ [c]) (by simp [hline, Ne.symm hc])
  exact gathered [] (by simp)

/-- The lines that a text has are the ones that are read from it. -/
theorem HasLines.lines_eq (h : HasLines cs found) : lines cs = found := by
  induction h with
  | nil => rfl
  | last hne hline => exact lines_of_notMem hne hline
  | feed hline hreturn _ ih => rw [lines_append_feed hline, ih, dropReturn, if_neg hreturn]
  | @returnFeed line rest found hline _ ih =>
    have hend : '\n' ∉ line ++ ['\r'] := by simp [hline]
    rw [List.append_cons, lines_append_feed hend, ih, dropReturn_concat]

/-- **The lines that are found are those that a text has.** -/
theorem hasLines_iff : HasLines cs found ↔ lines cs = found := by
  constructor
  · exact HasLines.lines_eq
  · rintro rfl
    obtain ⟨found, hfound⟩ := exists_hasLines cs
    rwa [hfound.lines_eq]

theorem withoutMark_of_head? (h : cs.head? ≠ some byteOrderMark) : withoutMark cs = cs := by
  cases cs with
  | nil => rfl
  | cons c cs => exact withoutMark_of_head_ne cs fun hc => h (congrArg some hc)

end SolutionTree.Text
