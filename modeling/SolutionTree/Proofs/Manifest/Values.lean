import Mathlib.Data.List.Forall2
import SolutionTree.Proofs.Manifest.Lines
import SolutionTree.Proofs.Text.Words

/-!
The values of a manifest.

`Assigns` says what value the rest of a key's line gives, and `Malformed` what can
be wrong with such a line. `MadeOf` says what manifest the values of all keys make,
by their words, by the include directories that words stand for (`Resolves`), and by
the texts that are not empty. All four are said without the reader, which agrees
with them (`value?_eq_some_iff`, `malformed_iff_of_assigns`, `resolves_iff`,
`madeOf_ofValues`).
-/

namespace SolutionTree.Manifest

open Text

/-! ### Values -/

/-- What value the rest of a line gives: blanks, an operator, and the value with
blanks around it. -/
inductive Assigns (rest value : List Char) : Prop where
  | colonEquals {blanks tail : List Char} : (∀ c ∈ blanks, isBlank c = true) →
      rest = blanks ++ ':' :: '=' :: tail → Trims tail value → Assigns rest value
  | equals {blanks tail : List Char} : (∀ c ∈ blanks, isBlank c = true) →
      rest = blanks ++ '=' :: tail → Trims tail value → Assigns rest value

/-- The words of a value are some names. -/
def HasNames (value : List Char) (names : List String) : Prop :=
  HasWords value (names.map String.toList)

/-- What is wrong with a line of a key: it has no operator behind the token, or it
is to name an executable and its value has not exactly one word. -/
inductive Malformed (key : Key) (rest : List Char) : Problem → Prop where
  | missingOperator : (∀ value, ¬ Assigns rest value) → Malformed key rest (.missingOperator key)
  | missingName {value : List Char} : key = .exe → Assigns rest value → HasNames value [] →
      Malformed key rest .missingName
  | severalNames {value : List Char} {names : List String} : key = .exe → Assigns rest value →
      HasNames value names → 1 < names.length →
      Malformed key rest (.severalNames (String.ofList value))

variable {key : Key} {rest value : List Char} {names : List String}

/-- The names of a value are its words, read one after another. -/
theorem hasNames_iff : HasNames value names ↔ tokens value = names := by
  have hinverse : Function.LeftInverse String.ofList String.toList := fun _ => String.ofList_toList
  rw [HasNames, hasWords_iff, tokens]
  constructor
  · intro h
    rw [h, List.map_map, hinverse.comp_eq_id, List.map_id]
  · rintro rfl
    rw [List.map_map]
    exact (List.map_id _).symm.trans (List.map_congr_left fun word _ => String.toList_ofList.symm)

theorem trimStart_eq_iff {cs tail : List Char} {c : Char} (hc : isBlank c = false) :
    trimStart cs = c :: tail ↔ ∃ blanks, (∀ b ∈ blanks, isBlank b = true) ∧
      cs = blanks ++ c :: tail := by
  constructor
  · intro h
    refine ⟨cs.takeWhile isBlank, fun b hb => List.all_eq_true.mp List.all_takeWhile b hb, ?_⟩
    rw [← h, trimStart, List.takeWhile_append_dropWhile]
  · rintro ⟨blanks, hblanks, rfl⟩
    rw [trimStart, List.dropWhile_append_of_pos hblanks]
    exact trimStart_cons_of_not_blank tail hc

/-- The value of a rest is what it assigns: blanks before the operator and around
the value do not belong to it. -/
theorem value?_eq_some_iff : value? rest = some value ↔ Assigns rest value := by
  have hcolon : isBlank ':' = false := by decide
  have hequals : isBlank '=' = false := by decide
  constructor
  · intro h
    unfold value? at h
    split at h
    next tail htrim =>
      obtain ⟨blanks, hblanks, heq⟩ := (trimStart_eq_iff hcolon).mp htrim
      exact .colonEquals hblanks heq (trims_iff.mpr (Option.some.inj h))
    next tail htrim =>
      obtain ⟨blanks, hblanks, heq⟩ := (trimStart_eq_iff hequals).mp htrim
      exact .equals hblanks heq (trims_iff.mpr (Option.some.inj h))
    next => contradiction
  · rintro (⟨hblanks, heq, htrims⟩ | ⟨hblanks, heq, htrims⟩)
    · rw [value?, (trimStart_eq_iff hcolon).mpr ⟨_, hblanks, heq⟩]
      exact congrArg some (trims_iff.mp htrims)
    · rw [value?, (trimStart_eq_iff hequals).mpr ⟨_, hblanks, heq⟩]
      exact congrArg some (trims_iff.mp htrims)

theorem value?_eq_none_iff : value? rest = none ↔ ∀ value, ¬ Assigns rest value := by
  simp only [← value?_eq_some_iff]
  exact Option.eq_none_iff_forall_ne_some

/-- A rest assigns one value at most: it neither starts nor ends with a blank, and
the operator is the first thing that is none. -/
theorem Assigns.unique {value' : List Char} (h : Assigns rest value)
    (h' : Assigns rest value') : value = value' := by
  rw [← value?_eq_some_iff] at h h'
  exact Option.some.inj (h.symm.trans h')

/-- A value is refused for what is wrong with its line. -/
theorem malformed_iff_of_assigns {problem : Problem} (h : Assigns rest value) (base : IncludeBase)
    (m : Manifest) : Malformed key rest problem ↔ assign base m key value = .error problem := by
  constructor
  · rintro (hnone | ⟨rfl, hvalue, hnames⟩ | @⟨_, names, rfl, hvalue, hnames, hseveral⟩)
    · exact absurd h (hnone value)
    · obtain rfl := h.unique hvalue
      simp [assign, hasNames_iff.mp hnames]
    · obtain rfl := h.unique hvalue
      rw [assign, hasNames_iff.mp hnames]
      match names, hseveral with
      | first :: second :: more, _ => rfl
  · intro herror
    cases key with
    | exe =>
      match hnames : tokens value with
      | [] =>
        simp only [assign, hnames] at herror
        rw [← Except.error.inj herror]
        exact .missingName rfl h (hasNames_iff.mpr hnames)
      | [name] => simp [assign, hnames] at herror
      | first :: second :: more =>
        simp only [assign, hnames] at herror
        rw [← Except.error.inj herror]
        exact .severalNames rfl h (hasNames_iff.mpr hnames) (by simp)
    | depends => contradiction
    | includeDirs => contradiction
    | cflags => contradiction
    | runArgs => contradiction

/-! ### Include directories -/

def isSeparator (c : Char) : Bool :=
  c == '/' || c == '\\'

/-- What `$(ROOT)` and a rest stand for: the rest, without separators in front of
it, below the project root. -/
def belowRoot (root : Path) (rest : List Char) : Path :=
  let rest := rest.dropWhile isSeparator
  if rest.isEmpty then root else root.join ⟨String.ofList rest⟩

/-- The include directory that a word stands for: the word itself, unless it starts
with `$(ROOT)`; the way from the output directory to the project root, when only
separators follow; and the way to what follows the separators, which is joined to
the project root. -/
inductive Resolves (base : IncludeBase) (token : String) : String → Prop where
  | verbatim : ¬ "$(ROOT)".toList <+: token.toList → Resolves base token token
  | root {separators : List Char} : token.toList = "$(ROOT)".toList ++ separators →
      (∀ c ∈ separators, c = '/' ∨ c = '\\') →
      Resolves base token (Path.relative base.root base.outputDir)
  | below {separators rest : List Char} {c : Char} :
      token.toList = "$(ROOT)".toList ++ (separators ++ c :: rest) →
      (∀ c ∈ separators, c = '/' ∨ c = '\\') → c ≠ '/' → c ≠ '\\' →
      Resolves base token
        (Path.relative (base.root.join ⟨String.ofList (c :: rest)⟩) base.outputDir)

variable {base : IncludeBase} {token item : String}

theorem isSeparator_iff {c : Char} : isSeparator c = true ↔ c = '/' ∨ c = '\\' := by
  simp [isSeparator]

/-- Behind `$(ROOT)`, an include directory is the way to what the rest stands for.
-/
theorem includeDir_of_rootToken (h : token.toList = rootToken ++ rest) :
    includeDir base token = Path.relative (belowRoot base.root rest) base.outputDir := by
  have hprefix : rootToken.isPrefixOf token.toList = true :=
    List.isPrefixOf_iff_prefix.mpr ⟨rest, h.symm⟩
  have hrest : token.toList.drop rootToken.length = rest := by rw [h, List.drop_left]
  unfold includeDir
  dsimp only
  rw [if_pos hprefix, hrest]
  rfl

theorem includeDir_of_not_rootToken (h : ¬ rootToken <+: token.toList) :
    includeDir base token = token := by
  have hprefix : ¬ rootToken.isPrefixOf token.toList = true :=
    mt List.isPrefixOf_iff_prefix.mp h
  unfold includeDir
  dsimp only
  rw [if_neg hprefix]

/-- However many separators follow `$(ROOT)`, and of whatever kind, they stand for
nothing. -/
theorem belowRoot_separators {root : Path} {separators : List Char}
    (h : ∀ c ∈ separators, c = '/' ∨ c = '\\') (rest : List Char) :
    belowRoot root (separators ++ rest) = belowRoot root rest := by
  rw [belowRoot, belowRoot, List.dropWhile_append_of_pos fun c hc => isSeparator_iff.mpr (h c hc)]

theorem belowRoot_cons {root : Path} {c : Char} (hslash : c ≠ '/') (hbackslash : c ≠ '\\') :
    belowRoot root (c :: rest) = root.join ⟨String.ofList (c :: rest)⟩ := by
  have hc : isSeparator c = false := by simp [isSeparator, hslash, hbackslash]
  simp [belowRoot, hc]

/-- **A word has the include directory that it stands for.** -/
theorem resolves_iff : Resolves base token item ↔ includeDir base token = item := by
  constructor
  · rintro (hnot | @⟨separators, htoken, hseparators⟩ | ⟨htoken, hseparators, hslash, hbackslash⟩)
    · exact includeDir_of_not_rootToken hnot
    · rw [← List.append_nil separators] at htoken
      rw [includeDir_of_rootToken htoken, belowRoot_separators hseparators]
      rfl
    · rw [includeDir_of_rootToken htoken, belowRoot_separators hseparators,
        belowRoot_cons hslash hbackslash]
  · rintro rfl
    by_cases hroot : rootToken <+: token.toList
    · obtain ⟨rest, hrest⟩ := hroot
      have hseparators : ∀ c ∈ rest.takeWhile isSeparator, c = '/' ∨ c = '\\' :=
        fun c hc => isSeparator_iff.mp (List.all_eq_true.mp List.all_takeWhile c hc)
      rw [includeDir_of_rootToken hrest.symm]
      rw [← List.takeWhile_append_dropWhile (p := isSeparator) (l := rest)] at hrest ⊢
      rw [belowRoot_separators hseparators]
      cases hdrop : rest.dropWhile isSeparator with
      | nil =>
        rw [hdrop, List.append_nil] at hrest
        exact .root hrest.symm hseparators
      | cons c tail =>
        have hc := List.head?_dropWhile_not isSeparator rest
        have hnot : c ≠ '/' ∧ c ≠ '\\' := by simpa [hdrop, isSeparator] using hc
        rw [hdrop] at hrest
        rw [belowRoot_cons hnot.1 hnot.2]
        exact .below hrest.symm hseparators hnot.1 hnot.2
    · rw [includeDir_of_not_rootToken hroot]
      exact .verbatim hroot

/-! ### Manifests -/

/-- A manifest is made of the values of its keys. The name of an executable is the
only word of its value, dependencies are the words of theirs, include directories
are what words stand for, and arguments are a value as it is, unless it is empty. A
key without a value makes nothing. -/
structure MadeOf (base : IncludeBase) (values : Key → Option (List Char)) (m : Manifest) :
    Prop where
  executable : ∀ name, m.executable = some name ↔ ∃ value, values .exe = some value ∧
    HasNames value [name]
  dependencies : HasNames ((values .depends).getD []) m.dependencies
  includeDirs : ∃ names, HasNames ((values .includeDirs).getD []) names ∧
    List.Forall₂ (Resolves base) names m.includeDirs
  compilerArgs : ∀ args, m.compilerArgs = some args ↔ values .cflags = some args.toList ∧ args ≠ ""
  runArgs : ∀ args, m.runArgs = some args ↔ values .runArgs = some args.toList ∧ args ≠ ""

def ofValues (base : IncludeBase) (values : Key → Option (List Char)) : Manifest where
  executable := (values .exe).bind fun value => (tokens value).head?
  dependencies := ((values .depends).map tokens).getD []
  includeDirs := (((values .includeDirs).map tokens).getD []).map (includeDir base)
  compilerArgs := (values .cflags).bind nonempty?
  runArgs := (values .runArgs).bind nonempty?

variable {values : Key → Option (List Char)} {m m' : Manifest}

theorem nonempty?_eq_some_iff {args : String} :
    nonempty? value = some args ↔ value = args.toList ∧ args ≠ "" := by
  unfold nonempty?
  cases value with
  | nil =>
    simp only [List.isEmpty_nil, ↓reduceIte, reduceCtorEq, false_iff, not_and, not_not]
    exact fun h => String.toList_eq_nil_iff.mp h.symm
  | cons c cs =>
    simp only [List.isEmpty_cons, Bool.false_eq_true, ↓reduceIte, Option.some.injEq]
    constructor
    · rintro rfl
      simp
    · rintro ⟨h, -⟩
      rw [h, String.ofList_toList]

/-- Arguments are a value that was given and is not empty. -/
theorem bind_nonempty?_eq_some_iff {args : String} {given : Option (List Char)} :
    given.bind nonempty? = some args ↔ given = some args.toList ∧ args ≠ "" := by
  rw [Option.bind_eq_some_iff]
  simp only [nonempty?_eq_some_iff]
  constructor
  · rintro ⟨_, h, rfl, hne⟩
    exact ⟨h, hne⟩
  · rintro ⟨h, hne⟩
    exact ⟨_, h, rfl, hne⟩

theorem hasNames_getD_map (given : Option (List Char)) :
    HasNames (given.getD []) ((given.map tokens).getD []) := by
  cases given with
  | none => exact .nil
  | some value => exact hasNames_iff.mpr rfl

/-- Include directories resolve words one by one. -/
theorem forall₂_resolves_iff {names items : List String} :
    List.Forall₂ (Resolves base) names items ↔ names.map (includeDir base) = items := by
  have hresolves : Resolves base = fun token item => includeDir base token = item := by
    funext token item
    exact propext resolves_iff
  rw [hresolves, ← List.forall₂_eq_eq_eq, List.forall₂_map_left_iff]

/-- Values make one manifest at most. -/
theorem MadeOf.unique (h : MadeOf base values m) (h' : MadeOf base values m') : m = m' := by
  have hexecutable : m.executable = m'.executable :=
    Option.ext fun name => (h.executable name).trans (h'.executable name).symm
  have hdependencies : m.dependencies = m'.dependencies :=
    (hasNames_iff.mp h.dependencies).symm.trans (hasNames_iff.mp h'.dependencies)
  have hincludeDirs : m.includeDirs = m'.includeDirs := by
    obtain ⟨names, hnames, hitems⟩ := h.includeDirs
    obtain ⟨names', hnames', hitems'⟩ := h'.includeDirs
    obtain rfl := (hasNames_iff.mp hnames).symm.trans (hasNames_iff.mp hnames')
    exact (forall₂_resolves_iff.mp hitems).symm.trans (forall₂_resolves_iff.mp hitems')
  have hcompilerArgs : m.compilerArgs = m'.compilerArgs :=
    Option.ext fun args => (h.compilerArgs args).trans (h'.compilerArgs args).symm
  have hrunArgs : m.runArgs = m'.runArgs :=
    Option.ext fun args => (h.runArgs args).trans (h'.runArgs args).symm
  cases m
  cases m'
  rw [Manifest.mk.injEq]
  exact ⟨hexecutable, hdependencies, hincludeDirs, hcompilerArgs, hrunArgs⟩

/-- The manifest that values give is made of them, when the value for an executable
is one word. -/
theorem madeOf_ofValues (hexe : ∀ value, values .exe = some value → ∃ name, HasNames value [name]) :
    MadeOf base values (ofValues base values) where
  executable := by
    intro name
    rw [ofValues, Option.bind_eq_some_iff]
    constructor
    · rintro ⟨value, hvalue, hhead⟩
      obtain ⟨only, honly⟩ := hexe value hvalue
      rw [hasNames_iff.mp honly] at hhead
      obtain rfl := Option.some.inj hhead
      exact ⟨value, hvalue, honly⟩
    · rintro ⟨value, hvalue, hname⟩
      exact ⟨value, hvalue, by rw [hasNames_iff.mp hname]; rfl⟩
  dependencies := hasNames_getD_map _
  includeDirs := ⟨_, hasNames_getD_map _, forall₂_resolves_iff.mpr rfl⟩
  compilerArgs := fun _ => bind_nonempty?_eq_some_iff
  runArgs := fun _ => bind_nonempty?_eq_some_iff

end SolutionTree.Manifest
