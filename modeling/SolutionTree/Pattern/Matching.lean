import SolutionTree.Pattern

/-!
Which texts a pattern matches.

`Matches` gives the meaning and `matchesText` decides it (`matchesText_iff`). It
works through the tokens from the last to the first and keeps a row of answers, one
for each suffix of the text, so that its cost is the product of the two lengths
however many wildcards there are.
-/

namespace SolutionTree.Pattern

def Member.holds (c : Char) : Member → Bool
  | .one d => c == d
  | .range first last => first.toNat ≤ c.toNat && c.toNat ≤ last.toNat

def Token.takes (c : Char) : Token → Bool
  | .char d => c == d
  | .anyChar => true
  | .oneOf members => members.any (Member.holds c)
  | .noneOf members => !members.any (Member.holds c)
  | .anyText => false
  | .anyDirs => false

/-- What it is for tokens to match a text. -/
inductive Matches : List Token → List Char → Prop where
  | nil : Matches [] []
  | text {tokens : List Token} (skipped : List Char) {cs : List Char} :
      Matches tokens cs → Matches (.anyText :: tokens) (skipped ++ cs)
  | dirsLast (cs : List Char) : Matches [.anyDirs] cs
  | dirsNone {tokens : List Token} {cs : List Char} :
      Matches tokens cs → Matches (.anyDirs :: tokens) cs
  | dirs {tokens : List Token} (skipped : List Char) {cs : List Char} :
      Matches tokens cs → Matches (.anyDirs :: tokens) (skipped ++ '/' :: cs)
  | take {token : Token} {tokens : List Token} {c : Char} {cs : List Char} :
      token.takes c = true → Matches tokens cs → Matches (token :: tokens) (c :: cs)

/-! ### Rows of answers -/

/-- A text and all that is left of it when characters are dropped from its start. -/
def suffixes : List Char → List (List Char)
  | [] => [[]]
  | c :: cs => (c :: cs) :: suffixes cs

/-- The row for a token that takes one character, from the row for what follows it.
-/
def rowOfTake (token : Token) : List Char → List Bool → List Bool
  | c :: cs, _ :: row => (token.takes c && row.headD false) :: rowOfTake token cs row
  | _, _ => [false]

/-- The row for any text, from the row for what follows it. -/
def rowOfText : List Bool → List Bool
  | [] => []
  | b :: row =>
    let later := rowOfText row
    (b || later.headD false) :: later

/-- The row for any text up to a slash, from the row for what follows it. -/
def rowOfSlash : List Char → List Bool → List Bool
  | c :: cs, _ :: row =>
    let later := rowOfSlash cs row
    (c == '/' && row.headD false || later.headD false) :: later
  | _, _ => [false]

/-- Whether tokens match, for each suffix of a text. -/
def row (cs : List Char) : List Token → List Bool
  | [] => (suffixes cs).map List.isEmpty
  | [.anyDirs] => (suffixes cs).map fun _ => true
  | .anyDirs :: tokens =>
    let rest := row cs tokens
    List.zipWith (· || ·) rest (rowOfSlash cs rest)
  | .anyText :: tokens => rowOfText (row cs tokens)
  | token :: tokens => rowOfTake token cs (row cs tokens)

def matchesText (pattern : Pattern) (s : String) : Bool :=
  (row s.toList pattern.tokens).headD false

/-! ### What the rows say -/

theorem mem_suffixes {t s : List Char} : t ∈ suffixes s ↔ ∃ skipped, s = skipped ++ t := by
  induction s with
  | nil => simp [suffixes]
  | cons c s ih =>
    simp only [suffixes, List.mem_cons, ih]
    constructor
    · rintro (rfl | ⟨skipped, rfl⟩)
      · exact ⟨[], rfl⟩
      · exact ⟨c :: skipped, rfl⟩
    · rintro ⟨_ | ⟨d, skipped⟩, h⟩
      · exact .inl h.symm
      · exact .inr ⟨skipped, (List.cons.inj h).2⟩

/-- The first entry of a row stands for the whole text. -/
theorem headD_suffixes (f : List Char → Bool) (cs : List Char) :
    ((suffixes cs).map f).headD false = f cs := by
  cases cs <;> rfl

/-- Whether one character is taken and the rest of a text answers to `f`. -/
def takesThen (token : Token) (f : List Char → Bool) : List Char → Bool
  | [] => false
  | c :: cs => token.takes c && f cs

/-- Whether what stands after some slash of a text answers to `f`. -/
def slashThen (f : List Char → Bool) : List Char → Bool
  | [] => false
  | c :: cs => c == '/' && f cs || slashThen f cs

/-- A path is crossed at any of its slashes, and what stands before the slash does
not count. -/
theorem slashThen_iff {f : List Char → Bool} {s : List Char} :
    slashThen f s = true ↔ ∃ skipped t, s = skipped ++ '/' :: t ∧ f t = true := by
  induction s with
  | nil => simp [slashThen]
  | cons c s ih =>
    simp only [slashThen, Bool.or_eq_true, Bool.and_eq_true, beq_iff_eq, ih]
    constructor
    · rintro (⟨rfl, h⟩ | ⟨skipped, t, rfl, h⟩)
      · exact ⟨[], s, rfl, h⟩
      · exact ⟨c :: skipped, t, rfl, h⟩
    · rintro ⟨_ | ⟨d, skipped⟩, t, e, h⟩
      · exact .inl ⟨(List.cons.inj e).1, (List.cons.inj e).2 ▸ h⟩
      · exact .inr ⟨skipped, t, (List.cons.inj e).2, h⟩

theorem rowOfTake_suffixes (token : Token) (f : List Char → Bool) (cs : List Char) :
    rowOfTake token cs ((suffixes cs).map f) = (suffixes cs).map (takesThen token f) := by
  induction cs with
  | nil => rfl
  | cons c cs ih =>
    simp only [suffixes, List.map_cons, rowOfTake, ih, headD_suffixes, takesThen]

/-- A row for any text is worked out from the right: the suffixes of a suffix are
those behind it. -/
theorem rowOfText_suffixes (f : List Char → Bool) (cs : List Char) :
    rowOfText ((suffixes cs).map f) = (suffixes cs).map fun s => (suffixes s).any f := by
  induction cs with
  | nil => simp [suffixes, rowOfText]
  | cons c cs ih =>
    simp only [suffixes, List.map_cons, rowOfText, ih, headD_suffixes, List.any_cons]

theorem rowOfSlash_suffixes (f : List Char → Bool) (cs : List Char) :
    rowOfSlash cs ((suffixes cs).map f) = (suffixes cs).map (slashThen f) := by
  induction cs with
  | nil => rfl
  | cons c cs ih =>
    simp only [suffixes, List.map_cons, rowOfSlash, ih, headD_suffixes, slashThen]

/-- A token for one character takes the first one, and there has to be one. -/
theorem matches_take_iff {token : Token} {tokens : List Token} {s : List Char}
    (hText : token ≠ .anyText) (hDirs : token ≠ .anyDirs) :
    Matches (token :: tokens) s ↔ ∃ c cs, s = c :: cs ∧ token.takes c = true ∧
      Matches tokens cs := by
  constructor
  · intro h
    cases h with
    | text => exact absurd rfl hText
    | dirsLast => exact absurd rfl hDirs
    | dirsNone => exact absurd rfl hDirs
    | dirs => exact absurd rfl hDirs
    | take ht hm => exact ⟨_, _, rfl, ht, hm⟩
  · rintro ⟨c, cs, rfl, ht, hm⟩
    exact .take ht hm

/-- Any text is skipped, also none, to come to what the other tokens match. -/
theorem matches_text_iff {tokens : List Token} {s : List Char} :
    Matches (.anyText :: tokens) s ↔ ∃ t ∈ suffixes s, Matches tokens t := by
  constructor
  · intro h
    cases h with
    | text skipped hm => exact ⟨_, mem_suffixes.2 ⟨skipped, rfl⟩, hm⟩
    | take ht => simp [Token.takes] at ht
  · rintro ⟨t, ht, hm⟩
    obtain ⟨skipped, rfl⟩ := mem_suffixes.1 ht
    exact .text skipped hm

/-- Directories are skipped up to a slash, or none are. The last token is not among
these: `**` at the end of a pattern takes everything. -/
theorem matches_dirs_iff {tokens : List Token} {s : List Char} (hne : tokens ≠ []) :
    Matches (.anyDirs :: tokens) s ↔ Matches tokens s ∨
      ∃ skipped t, s = skipped ++ '/' :: t ∧ Matches tokens t := by
  constructor
  · intro h
    cases h with
    | dirsLast => exact absurd rfl hne
    | dirsNone hm => exact .inl hm
    | dirs skipped hm => exact .inr ⟨skipped, _, rfl, hm⟩
    | take ht => simp [Token.takes] at ht
  · rintro (hm | ⟨skipped, t, rfl, hm⟩)
    · exact .dirsNone hm
    · exact .dirs skipped hm

theorem row_take (token : Token) (tokens : List Token) (cs : List Char)
    (hText : token ≠ .anyText) (hDirs : token ≠ .anyDirs) :
    row cs (token :: tokens) = rowOfTake token cs (row cs tokens) := by
  cases token with
  | anyText => exact absurd rfl hText
  | anyDirs => exact absurd rfl hDirs
  | _ => rfl

theorem row_dirs (tokens : List Token) (cs : List Char) (hne : tokens ≠ []) :
    row cs (.anyDirs :: tokens) =
      List.zipWith (· || ·) (row cs tokens) (rowOfSlash cs (row cs tokens)) := by
  cases tokens with
  | nil => exact absurd rfl hne
  | cons token tokens => rfl

/-- A row asks the same question of every suffix, and its answer is the meaning of
the tokens. -/
theorem exists_row_eq (tokens : List Token) :
    ∃ f : List Char → Bool, (∀ cs, row cs tokens = (suffixes cs).map f) ∧
      ∀ s, f s = true ↔ Matches tokens s := by
  induction tokens with
  | nil =>
    refine ⟨List.isEmpty, fun cs => rfl, fun s => ⟨fun h => ?_, fun h => ?_⟩⟩
    · rw [List.isEmpty_iff.1 h]
      exact .nil
    · cases h
      rfl
  | cons token tokens ih =>
    obtain ⟨f, hrow, hf⟩ := ih
    by_cases hText : token = .anyText
    · subst hText
      refine ⟨fun s => (suffixes s).any f, fun cs => ?_, fun s => ?_⟩
      · rw [row, hrow, rowOfText_suffixes]
      · simp only [List.any_eq_true, hf, matches_text_iff]
    by_cases hDirs : token = .anyDirs
    · subst hDirs
      by_cases hne : tokens = []
      · subst hne
        exact ⟨fun _ => true, fun cs => rfl, fun s => ⟨fun _ => .dirsLast s, fun _ => rfl⟩⟩
      · refine ⟨fun s => f s || slashThen f s, fun cs => ?_, fun s => ?_⟩
        · rw [row_dirs tokens cs hne, hrow, rowOfSlash_suffixes, List.zipWith_map,
            List.zipWith_self]
        · simp only [Bool.or_eq_true, slashThen_iff, hf, matches_dirs_iff hne]
    · refine ⟨takesThen token f, fun cs => ?_, fun s => ?_⟩
      · rw [row_take token tokens cs hText hDirs, hrow, rowOfTake_suffixes]
      · rw [matches_take_iff hText hDirs]
        cases s with
        | nil => simp [takesThen]
        | cons c cs =>
          simp only [takesThen, Bool.and_eq_true, hf]
          constructor
          · exact fun h => ⟨c, cs, rfl, h⟩
          · rintro ⟨_, _, e, h⟩
            obtain ⟨rfl, rfl⟩ := List.cons.inj e
            exact h

/-- **The table of a pattern decides whether it matches.** A row has one entry for
each suffix of the text, and each token gives the next row from the one before. -/
theorem matchesText_iff {pattern : Pattern} {s : String} :
    pattern.matchesText s = true ↔ Matches pattern.tokens s.toList := by
  obtain ⟨f, hrow, hf⟩ := exists_row_eq pattern.tokens
  rw [matchesText, hrow, headD_suffixes, hf]

end SolutionTree.Pattern
