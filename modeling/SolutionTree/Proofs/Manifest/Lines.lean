import SolutionTree.Manifest
import SolutionTree.Proofs.Text.Blank
import SolutionTree.Proofs.Text.Lines

/-!
The lines of a manifest that count.

`HasLines` says what the lines of a manifest are, `IsLineOf` which of them are a
key's, and `FirstLine` which one of these counts. The reader of a line agrees with
the second (`restOf?_eq_some_iff`), and `firstLine?` finds the line that counts
(`firstLine?_eq_some_iff`).
-/

namespace SolutionTree.Manifest

open Text

/-! ### Lines -/

/-- The lines of a text, without a byte order mark before them. -/
def linesOf (text : String) : List (List Char) :=
  lines (withoutMark text.toList)

/-- A text has some lines, to the first of which a byte order mark at the start does
not belong. -/
inductive HasLines (text : String) (found : List (List Char)) : Prop where
  | marked {cs : List Char} :
      text.toList = '\uFEFF' :: cs → Text.HasLines cs found → HasLines text found
  | unmarked : text.toList.head? ≠ some '\uFEFF' → Text.HasLines text.toList found →
      HasLines text found

/-- The lines that a text has are the ones that are read from it, the mark taken
away. -/
theorem hasLines_iff {text : String} {found : List (List Char)} :
    HasLines text found ↔ linesOf text = found := by
  rw [linesOf]
  constructor
  · rintro (⟨hmark, h⟩ | ⟨hmark, h⟩)
    · rw [hmark, ← byteOrderMark, withoutMark_cons_mark]
      exact Text.hasLines_iff.mp h
    · rw [withoutMark_of_head? hmark]
      exact Text.hasLines_iff.mp h
  · rintro rfl
    by_cases hmark : text.toList.head? = some byteOrderMark
    · obtain ⟨cs, hcs⟩ := List.head?_eq_some_iff.mp hmark
      rw [hcs, withoutMark_cons_mark]
      exact .marked hcs (Text.hasLines_iff.mpr rfl)
    · rw [withoutMark_of_head? hmark]
      exact .unmarked hmark (Text.hasLines_iff.mpr rfl)

/-! ### Lines of a key -/

/-- A line of a key: within blanks, the token of the key, and behind it the end of
the line, a blank, a colon or an equals sign. -/
structure IsLineOf (key : Key) (line rest : List Char) : Prop where
  trims : Trims line (key.token.toList ++ rest)
  ends : rest = [] ∨ ∃ c tail, rest = c :: tail ∧ (isBlank c = true ∨ c = ':' ∨ c = '=')

/-- The first line of a key, by its index: no line before it is one of the key's. -/
inductive FirstLine (key : Key) (lines : List (List Char)) (i : Nat) (rest : List Char) :
    Prop where
  | intro {before after : List (List Char)} {line : List Char} :
      lines = before ++ line :: after → before.length = i → IsLineOf key line rest →
      (∀ earlier ∈ before, ∀ rest', ¬ IsLineOf key earlier rest') → FirstLine key lines i rest

theorem Key.ofToken?_eq_some_iff {token : String} {key : Key} :
    Key.ofToken? token = some key ↔ token = key.token := by
  constructor
  · intro h
    have hfound := List.find?_some h
    exact (beq_iff_eq.mp hfound).symm
  · rintro rfl
    exact Key.ofToken?_token key

theorem endsToken_iff {c : Char} :
    endsToken c = true ↔ isBlank c = true ∨ c = ':' ∨ c = '=' := by
  simp [endsToken, or_assoc]

theorem not_endsToken_of_mem_token (key : Key) :
    ∀ c ∈ key.token.toList, (!endsToken c) = true := by
  rw [← List.all_eq_true]
  cases key <;> decide

/-- A key is its token, and behind it the text ends or something stands that ends a
token. -/
theorem key?_eq_some_iff {cs rest : List Char} {key : Key} :
    key? cs = some (key, rest) ↔ cs = key.token.toList ++ rest ∧
      (rest = [] ∨ ∃ c tail, rest = c :: tail ∧ (isBlank c = true ∨ c = ':' ∨ c = '=')) := by
  simp only [key?, Option.map_eq_some_iff, Prod.mk.injEq, Key.ofToken?_eq_some_iff]
  constructor
  · rintro ⟨key, htoken, rfl, rfl⟩
    have htoken' : cs.takeWhile (!endsToken ·) = key.token.toList := by
      rw [← htoken, String.toList_ofList]
    refine ⟨by rw [← htoken', List.takeWhile_append_dropWhile], ?_⟩
    cases hrest : cs.dropWhile (!endsToken ·) with
    | nil => exact .inl rfl
    | cons c tail =>
      have hc := List.head?_dropWhile_not (!endsToken ·) cs
      rw [hrest] at hc
      exact .inr ⟨c, tail, rfl, endsToken_iff.mp (by simpa using hc)⟩
  · rintro ⟨rfl, hends⟩
    have hstop : rest.takeWhile (!endsToken ·) = [] ∧ rest.dropWhile (!endsToken ·) = rest := by
      rcases hends with rfl | ⟨c, tail, rfl, hc⟩
      · exact ⟨rfl, rfl⟩
      · have hc' := endsToken_iff.mpr hc
        exact ⟨List.takeWhile_cons_of_neg (by simp [hc']),
          List.dropWhile_cons_of_neg (by simp [hc'])⟩
    have htoken := not_endsToken_of_mem_token key
    refine ⟨key, ?_, rfl, ?_⟩
    · rw [List.takeWhile_append_of_pos htoken, hstop.1, List.append_nil, String.ofList_toList]
    · rw [List.dropWhile_append_of_pos htoken, hstop.2]

/-- What follows the token in a line of a key. -/
def restOf? (key : Key) (line : List Char) : Option (List Char) :=
  match key? (trim line) with
  | none => none
  | some (found, rest) => if found = key then some rest else none

/-- What is read behind a token is the rest of a line of that key. -/
theorem restOf?_eq_some_iff {key : Key} {line rest : List Char} :
    restOf? key line = some rest ↔ IsLineOf key line rest := by
  have hkey : restOf? key line = some rest ↔ key? (trim line) = some (key, rest) := by
    rw [restOf?]
    cases key? (trim line) with
    | none => simp
    | some found =>
      obtain ⟨found, rest'⟩ := found
      by_cases h : found = key
      · simp [h]
      · simp [h]
  rw [hkey, key?_eq_some_iff, ← trims_iff]
  exact ⟨fun ⟨htrims, hends⟩ => ⟨htrims, hends⟩, fun h => ⟨h.trims, h.ends⟩⟩

theorem restOf?_eq_none_iff {key : Key} {line : List Char} :
    restOf? key line = none ↔ ∀ rest, ¬ IsLineOf key line rest := by
  simp only [← restOf?_eq_some_iff]
  exact Option.eq_none_iff_forall_ne_some

/-! ### First lines -/

/-- The index of the first line of a key, and what follows the token in it. -/
def firstLine? (key : Key) : List (List Char) → Option (Nat × List Char)
  | [] => none
  | line :: lines =>
    match restOf? key line with
    | some rest => some (0, rest)
    | none => (firstLine? key lines).map fun found => (found.1 + 1, found.2)

variable {key : Key} {line rest : List Char} {lines : List (List Char)} {i : Nat}

/-- The first line of a key is the line in front, or the first one of the others
when that is no line of the key. -/
theorem firstLine_cons_iff :
    FirstLine key (line :: lines) i rest ↔ (i = 0 ∧ IsLineOf key line rest) ∨
      ∃ j, i = j + 1 ∧ (∀ rest', ¬ IsLineOf key line rest') ∧ FirstLine key lines j rest := by
  constructor
  · rintro ⟨hsplit, hlength, hline, hbefore⟩
    rename_i before after found
    cases before with
    | nil =>
      obtain ⟨rfl, rfl⟩ := List.cons.inj hsplit
      exact .inl ⟨hlength.symm, hline⟩
    | cons first before =>
      obtain ⟨rfl, rfl⟩ := List.cons.inj hsplit
      have ⟨hfirst, hbefore⟩ := List.forall_mem_cons.mp hbefore
      exact .inr ⟨before.length, hlength.symm, hfirst, rfl, rfl, hline, hbefore⟩
  · rintro (⟨rfl, hline⟩ | ⟨j, rfl, hnot, hsplit, hlength, hline, hbefore⟩)
    · exact ⟨(List.nil_append _).symm, rfl, hline, by simp⟩
    · refine ⟨by rw [hsplit, ← List.cons_append], by rw [List.length_cons, hlength], hline, ?_⟩
      exact List.forall_mem_cons.mpr ⟨hnot, hbefore⟩

theorem firstLine?_eq_some_iff :
    firstLine? key lines = some (i, rest) ↔ FirstLine key lines i rest := by
  induction lines generalizing i rest with
  | nil =>
    constructor
    · intro h
      contradiction
    · rintro ⟨hsplit, -, -, -⟩
      simp at hsplit
  | cons line lines ih =>
    rw [firstLine_cons_iff, firstLine?]
    cases hline : restOf? key line with
    | some found =>
      have hfound := restOf?_eq_some_iff.mp hline
      constructor
      · intro h
        obtain ⟨rfl, rfl⟩ := Prod.mk.inj (Option.some.inj h)
        exact .inl ⟨rfl, hfound⟩
      · rintro (⟨rfl, h⟩ | ⟨j, -, hnot, -⟩)
        · rw [← restOf?_eq_some_iff, hline] at h
          rw [Option.some.inj h]
        · exact absurd hfound (hnot found)
    | none =>
      have hnot := restOf?_eq_none_iff.mp hline
      simp only [Option.map_eq_some_iff, Prod.exists, Prod.mk.injEq, ih]
      constructor
      · rintro ⟨j, rest, hfirst, rfl, rfl⟩
        exact .inr ⟨j, rfl, hnot, hfirst⟩
      · rintro (⟨-, h⟩ | ⟨j, rfl, -, hfirst⟩)
        · exact absurd h (hnot rest)
        · exact ⟨j, rest, hfirst, rfl, rfl⟩

/-- More lines behind do not change the first line of a key that has one. -/
theorem firstLine?_append (key : Key) (front back : List (List Char)) :
    firstLine? key (front ++ back) = (firstLine? key front).or
      ((firstLine? key back).map fun found => (found.1 + front.length, found.2)) := by
  induction front with
  | nil => simp [firstLine?]
  | cons line front ih =>
    rw [List.cons_append, firstLine?, firstLine?]
    cases restOf? key line with
    | some rest => rfl
    | none =>
      simp only [ih, Option.map_or, Option.map_map, List.length_cons]
      rfl

theorem firstLine?_concat (key : Key) (lines : List (List Char)) (line : List Char) :
    firstLine? key (lines ++ [line]) =
      (firstLine? key lines).or ((restOf? key line).map (lines.length, ·)) := by
  rw [firstLine?_append]
  cases hline : restOf? key line with
  | none => simp [firstLine?, hline]
  | some rest => simp [firstLine?, hline]

end SolutionTree.Manifest
