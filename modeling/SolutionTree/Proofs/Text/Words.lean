import Mathlib.Data.List.Basic
import SolutionTree.Text.Blank

/-!
The words of a text.

`HasWords` says what the words of a text are without cutting it: runs of characters
that are not blank, each of which goes on as far as it can, and nothing but blanks
between them. A text that is cut at a blank has the words of both its parts
(`words_append_blank`), from which it follows that `words` finds these runs and no
others (`hasWords_iff`).
-/

namespace SolutionTree.Text

/-- A text has some words, from the front: a blank belongs to none, and a run of
characters that are not blank is a word when it ends with the text or before a
blank. -/
inductive HasWords : List Char → List (List Char) → Prop where
  | nil : HasWords [] []
  | blank {c : Char} {cs : List Char} {found : List (List Char)} :
      isBlank c = true → HasWords cs found → HasWords (c :: cs) found
  | last {word : List Char} :
      word ≠ [] → (∀ c ∈ word, isBlank c = false) → HasWords word [word]
  | word {word : List Char} {blank : Char} {cs : List Char} {found : List (List Char)} :
      word ≠ [] → (∀ c ∈ word, isBlank c = false) → isBlank blank = true → HasWords cs found →
      HasWords (word ++ blank :: cs) (word :: found)

variable {word cs : List Char} {found : List (List Char)}

/-- A blank parts the words before it from those after it. -/
theorem words_append_blank {blank : Char} (h : isBlank blank = true) (front back : List Char) :
    words (front ++ blank :: back) = words front ++ words back := by
  unfold words
  rw [List.splitOnP_append_cons front back h, List.filter_append]

theorem words_cons_of_blank {blank : Char} (h : isBlank blank = true) (cs : List Char) :
    words (blank :: cs) = words cs :=
  words_append_blank h [] cs

/-- A run of characters that are not blank is one word. -/
theorem words_of_not_blank (hne : word ≠ []) (h : ∀ c ∈ word, isBlank c = false) :
    words word = [word] := by
  rw [words, List.splitOnP_eq_singleton h]
  simp [hne]

/-- A text has words whatever it is. What is not blank is gathered until a blank
comes or the text ends. -/
theorem exists_hasWords (cs : List Char) : ∃ found, HasWords cs found := by
  have gathered : ∀ word : List Char, (∀ c ∈ word, isBlank c = false) →
      ∃ found, HasWords (word ++ cs) found := by
    induction cs with
    | nil =>
      intro word hword
      rw [List.append_nil]
      by_cases hne : word = []
      · exact ⟨[], hne ▸ .nil⟩
      · exact ⟨[word], .last hne hword⟩
    | cons c cs ih =>
      intro word hword
      cases hblank : isBlank c with
      | true =>
        obtain ⟨found, hfound⟩ := ih [] (by simp)
        by_cases hne : word = []
        · exact ⟨found, hne ▸ .blank hblank hfound⟩
        · exact ⟨word :: found, .word hne hword hblank hfound⟩
      | false =>
        rw [List.append_cons]
        exact ih (word ++ [c]) (List.forall_mem_append.mpr ⟨hword, by simp [hblank]⟩)
  exact gathered [] (by simp)

/-- The words that a text has are the ones that are read from it. -/
theorem HasWords.words_eq (h : HasWords cs found) : words cs = found := by
  induction h with
  | nil => rfl
  | blank hblank _ ih => rw [words_cons_of_blank hblank, ih]
  | last hne hword => exact words_of_not_blank hne hword
  | word hne hword hblank _ ih =>
    rw [words_append_blank hblank, words_of_not_blank hne hword, ih, List.singleton_append]

/-- **The words that are found are those that a text has.** -/
theorem hasWords_iff : HasWords cs found ↔ words cs = found := by
  constructor
  · exact HasWords.words_eq
  · rintro rfl
    obtain ⟨found, hfound⟩ := exists_hasWords cs
    rwa [hfound.words_eq]

end SolutionTree.Text
