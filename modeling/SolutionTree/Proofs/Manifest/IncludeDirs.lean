import Mathlib.Data.List.Forall2
import SolutionTree.Proofs.Manifest.FirstLines
import SolutionTree.Proofs.Path.Backslash

/-!
Include directories lead below the project root.

A manifest has one include directory for each token of the value that counts, in
order (`includeDirs_of_parse`). A token that does not start with `$(ROOT)` stays as
it is. One that does is written relative to the output directory and leads to what
follows `$(ROOT)`, read below the project root — but for one spelling: a rest that
goes through the output directory and has an empty segment right behind it is
written as if it started at the root of the file system
(`not_leadsBelow_emptySegment`).
-/

namespace SolutionTree.Manifest

open Text

/-! ### Rests of tokens -/

/-- The place that a rest denotes below the project root, with backslashes read as
slashes. -/
def restPlace (root : Path) (rest : List Char) : List String :=
  Path.placeFrom root.withSlashes.place (pieces '/' (replace '\\' '/' (String.ofList rest)))

variable {base : IncludeBase} {root : Path} {token : String} {rest : List Char}

theorem restPlace_nil (root : Path) : restPlace root [] = root.withSlashes.place := by
  have hpieces : pieces '/' (replace '\\' '/' (String.ofList [])) = [""] := by decide
  rw [restPlace, hpieces, Path.placeFrom_cons, Path.stepPlace_empty, Path.placeFrom_nil]

/-- Separators in front of a rest do not count for where it leads. -/
theorem restPlace_dropWhile (root : Path) (rest : List Char) :
    restPlace root (rest.dropWhile isSeparator) = restPlace root rest := by
  induction rest with
  | nil => rw [List.dropWhile_nil]
  | cons c rest ih =>
    by_cases hc : isSeparator c = true
    · -- A separator in front is read as a slash, with an empty segment before it.
      have hslash : replace '\\' '/' (String.ofList (c :: rest)) =
          String.singleton '/' ++ replace '\\' '/' (String.ofList rest) := by
        apply String.toList_inj.mp
        rcases (by simpa [isSeparator] using hc : c = '/' ∨ c = '\\') with rfl | rfl
        · simp [replace]
        · simp [replace]
      rw [List.dropWhile_cons_of_pos hc, ih, restPlace, restPlace, hslash,
        Path.pieces_singleton_append, Path.placeFrom_cons, Path.stepPlace_empty]
    · rw [List.dropWhile_cons_of_neg hc]

/-- What is left of a rest starts with something else than a separator. -/
theorem ne_of_dropWhile_isSeparator {c : Char} {cs : List Char}
    (h : rest.dropWhile isSeparator = c :: cs) : c ≠ '/' ∧ c ≠ '\\' := by
  have hc := List.head?_dropWhile_not isSeparator rest
  simpa [h, isSeparator] using hc

/-- What `$(ROOT)` and a rest stand for is at the place that the rest leads to from
the root. -/
theorem place_belowRoot (root : Path) (rest : List Char) :
    (belowRoot root rest).withSlashes.place = restPlace root rest := by
  rw [← restPlace_dropWhile, belowRoot]
  split
  next h => rw [List.isEmpty_iff.mp h, restPlace_nil]
  next h =>
    obtain ⟨c, cs, hcs⟩ := List.exists_cons_of_ne_nil (mt List.isEmpty_iff.mpr h)
    have hrel : Path.isAbsolute ⟨String.ofList (rest.dropWhile isSeparator)⟩ = false := by
      simp [Path.isAbsolute, hcs, (ne_of_dropWhile_isSeparator hcs).1]
    exact Path.place_withSlashes_join root hrel

/-! ### Include directories -/

/-- A text leads from the output directory to what a rest denotes below the project
root: it does not start at the root of the file system, and joined to the output
directory it denotes the same place. -/
structure LeadsBelow (base : IncludeBase) (rest : List Char) (item : String) : Prop where
  isAbsolute_eq : Path.isAbsolute ⟨item⟩ = false
  place_eq : (base.outputDir.join ⟨item⟩).withSlashes.place = restPlace base.root rest

/-- The include directory that a token makes: the token itself; for `$(ROOT)` and a
rest, a text that leads there; and when the rest goes on behind the output directory
with an empty segment, what follows this segment, written from the root. -/
inductive MakesIncludeDir (base : IncludeBase) (token : String) : String → Prop where
  | verbatim : ¬ rootToken <+: token.toList → MakesIncludeDir base token token
  | below {rest : List Char} {item : String} : token.toList = rootToken ++ rest →
      (∀ tail, (belowRoot base.root rest).slashed ≠ base.outputDir.slashed ++ "//" ++ tail) →
      LeadsBelow base rest item → MakesIncludeDir base token item
  | astray {rest : List Char} {tail : String} : token.toList = rootToken ++ rest →
      (belowRoot base.root rest).slashed = base.outputDir.slashed ++ "//" ++ tail →
      MakesIncludeDir base token ("/" ++ tail)

section Base

variable {names : List String} (hbase : base.outputDir.withSlashes.Spells names)
  (hplain : ∀ name ∈ names, Path.isPlain name = true)
include hbase hplain

/-- An include directory leads below the project root unless the rest goes on behind
the output directory with an empty segment. -/
theorem leadsBelow_includeDir (htoken : token.toList = rootToken ++ rest)
    (hnot : ∀ tail, (belowRoot base.root rest).slashed ≠ base.outputDir.slashed ++ "//" ++ tail) :
    LeadsBelow base rest (includeDir base token) := by
  have hrel : Path.isAbsolute ⟨includeDir base token⟩ = false := by
    rw [includeDir_of_rootToken htoken, Bool.eq_false_iff, ne_eq, Path.isAbsolute_relative_iff]
    rintro ⟨tail, htail⟩
    exact hnot tail htail
  refine ⟨hrel, ?_⟩
  rw [includeDir_of_rootToken htoken] at hrel ⊢
  rw [Path.place_withSlashes_join_relative hbase hplain hrel, place_belowRoot]

/-- Every token makes its include directory in one of the three ways. -/
theorem makesIncludeDir (token : String) : MakesIncludeDir base token (includeDir base token) := by
  by_cases hroot : rootToken <+: token.toList
  · obtain ⟨rest, hrest⟩ := hroot
    have htoken := hrest.symm
    by_cases htail : ∃ tail,
        (belowRoot base.root rest).slashed = base.outputDir.slashed ++ "//" ++ tail
    · obtain ⟨tail, htail⟩ := htail
      rw [includeDir_of_rootToken htoken, Path.relative_eq_of_slashed_eq htail]
      exact .astray htoken htail
    · have hnot := not_exists.mp htail
      exact .below htoken hnot (leadsBelow_includeDir hbase hplain htoken hnot)
  · rw [includeDir_of_not_rootToken hroot]
    exact .verbatim hroot

/-- **Include directories stand for the tokens of the value that counts**, one for
each and in order, from an output directory that is spelled by plain names. -/
theorem includeDirs_of_parse {text : String} {m : Manifest} (h : parse base text = .ok m) :
    ∃ values, Says (linesOf text) values ∧
      List.Forall₂ (MakesIncludeDir base) (((values .includeDirs).map tokens).getD [])
        m.includeDirs := by
  rcases parse_outcome base text with ⟨e, he, -⟩ | ⟨hok, -⟩
  · rw [he] at h
    contradiction
  · obtain rfl := Except.ok.inj (hok.symm.trans h)
    refine ⟨_, says_valuesOf (linesOf text), ?_⟩
    rw [ofValues, List.forall₂_map_right_iff, List.forall₂_same]
    exact fun token _ => makesIncludeDir hbase hplain token

end Base

/-- Include directories with a detour through the output directory and an empty
segment further on, and outside the project, and the project root itself. -/
def includeLines : String :=
  "INCLUDE_DIRS = $(ROOT)\\bin\\..\\lib//boost/ /opt $(ROOT)\nINCLUDE_DIRS = /usr\n"

def projBase : IncludeBase := ⟨⟨"/proj"⟩, ⟨"/proj/bin"⟩⟩

/-- A detour through the output directory is kept, the empty segment further on
makes a path from the root, and the bare `$(ROOT)` is the way to the project root.
-/
theorem includeDirs_of_parse_includeLines :
    ∃ m, parse projBase includeLines = .ok m ∧
      m.includeDirs = ["../lib//boost", "/opt", "../../proj"] ∧
      ∃ values, Says (linesOf includeLines) values ∧
        List.Forall₂ (MakesIncludeDir projBase) (((values .includeDirs).map tokens).getD [])
          m.includeDirs := by
  have hok : parse projBase includeLines =
      .ok { includeDirs := ["../lib//boost", "/opt", "../../proj"] } := by decide +kernel
  have hbase : projBase.outputDir.withSlashes.Spells ["proj", "bin"] := .inl (by decide)
  exact ⟨_, hok, rfl, includeDirs_of_parse hbase (by decide) hok⟩

/-- **One empty segment leads astray**: right behind the output directory it makes
the rest start at the root of the file system. -/
theorem not_leadsBelow_emptySegment :
    ∃ m, parse projBase "INCLUDE_DIRS := $(ROOT)/bin//boost\n" = .ok m ∧
      ∃ item ∈ m.includeDirs, Path.isAbsolute ⟨item⟩ = true ∧
        (projBase.outputDir.join ⟨item⟩).withSlashes.place = ["boost"] ∧
        restPlace projBase.root "/bin//boost".toList = ["proj", "bin", "boost"] ∧
        ¬ LeadsBelow projBase "/bin//boost".toList item := by
  have hok : parse projBase "INCLUDE_DIRS := $(ROOT)/bin//boost\n" =
      .ok { includeDirs := ["/boost"] } := by decide +kernel
  refine ⟨_, hok, "/boost", by simp, by decide, by decide, by decide, ?_⟩
  intro h
  exact absurd h.isAbsolute_eq (by decide)

end SolutionTree.Manifest
