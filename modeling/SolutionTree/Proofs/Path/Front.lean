import SolutionTree.Proofs.Path.Spelling

/-!
Paths below one root.

The text that leads from one path to another below a root does not tell the root
(`relative_front`), if what stands below it is solid on both sides. A text of
slashes and backslashes would be dropped together with the slash that parts it from
the root, and the last name of the root would show.
-/

namespace SolutionTree.Path

variable {place xs out names : List String} {front s b rest : String}

/-- A text of names is more than slashes and backslashes when one of the names is.
-/
theorem isSolid_dirText_iff : IsSolid (dirText names) ↔ ∃ name ∈ names, IsSolid name := by
  constructor
  · rintro ⟨c, hc, hslash, hback⟩
    obtain ⟨name, hname, hmem⟩ := (mem_dirText_iff hslash).mp hc
    exact ⟨name, hname, c, hmem, hslash, hback⟩
  · rintro ⟨name, hname, c, hmem, hslash, hback⟩
    exact ⟨c, (mem_dirText_iff hslash).mpr ⟨name, hname, hmem⟩, hslash, hback⟩

/-- **A front that both paths have does not show** in the text that leads from one
to the other. -/
theorem relative_front (front : String) (hs : IsSolid s) (hb : IsSolid b) :
    Path.relative ⟨front ++ "/" ++ s⟩ ⟨front ++ "/" ++ b⟩ = Path.relative ⟨s⟩ ⟨b⟩ := by
  have hpieces : ∀ {t}, IsSolid t → Text.pieces '/' (⟨front ++ "/" ++ t⟩ : Path).slashed =
      Text.pieces '/' (Text.replace '\\' '/' front) ++ Text.pieces '/' (⟨t⟩ : Path).slashed := by
    intro t ht
    rw [slashed_append (front ++ "/") ht, Text.replace_append,
      Text.replace_of_notMem (s := "/") (by decide)]
    exact Text.pieces_append _ _
  rw [relative, relative, relativeText, relativeText, hpieces hs, hpieces hb,
    relativeSegments_append _ (Text.pieces_ne_nil '/' _)]

/-- Between two places below a root, only what stands below it counts: the segments
of the root are shared and do not show. -/
theorem relative_ofPlace_append (place : List String) (hxs : ∃ x ∈ xs, IsSolid x)
    (hout : ∃ name ∈ out, IsSolid name) :
    (ofPlace (place ++ xs)).relative (ofPlace (place ++ out)) =
      Path.relative ⟨dirText xs⟩ ⟨dirText out⟩ := by
  obtain ⟨x, hx, -⟩ := id hxs
  obtain ⟨name, hname, -⟩ := id hout
  have hsource : ofPlace (place ++ xs) = ⟨frontText place ++ "/" ++ dirText xs⟩ :=
    eq_of_text_eq (text_ofPlace_append place (List.ne_nil_of_mem hx))
  have hbase : ofPlace (place ++ out) = ⟨frontText place ++ "/" ++ dirText out⟩ :=
    eq_of_text_eq (text_ofPlace_append place (List.ne_nil_of_mem hname))
  rw [hsource, hbase]
  exact relative_front _ (isSolid_dirText_iff.mpr hxs) (isSolid_dirText_iff.mpr hout)

section Place

variable (hplace : ∀ name ∈ place, IsSegment name)
include hplace

/-- The same when the text below the root is put there as it is. -/
theorem relative_join (hrest : isAbsolute ⟨rest⟩ = false) (hsolid : IsSolid rest)
    (hout : ∃ name ∈ out, IsSolid name) :
    ((ofPlace place).join ⟨rest⟩).relative (ofPlace (place ++ out)) =
      Path.relative ⟨rest⟩ ⟨dirText out⟩ := by
  obtain ⟨name, hname, -⟩ := id hout
  have hsource : (ofPlace place).join ⟨rest⟩ = ⟨frontText place ++ "/" ++ rest⟩ :=
    eq_of_text_eq ((spells_ofPlace place).text_join hplace hrest)
  have hbase : ofPlace (place ++ out) = ⟨frontText place ++ "/" ++ dirText out⟩ :=
    eq_of_text_eq (text_ofPlace_append place (List.ne_nil_of_mem hname))
  rw [hsource, hbase]
  exact relative_front _ hsolid (isSolid_dirText_iff.mpr hout)

/-- Names that are put below a place as one text are put there one by one. -/
theorem join_dirText (hne : names ≠ []) (hnames : ∀ name ∈ names, IsSegment name) :
    (ofPlace place).join ⟨dirText names⟩ = ofPlace (place ++ names) := by
  have hrel : isAbsolute ⟨dirText names⟩ = false := by
    rw [Bool.eq_false_iff]
    intro habs
    obtain ⟨rest, hpieces, -⟩ := exists_segments_of_isAbsolute _ habs
    have hslash : ∀ name ∈ names, '/' ∉ name.toList := fun name hm => (hnames name hm).2
    have hsame : Text.pieces '/' (dirText names) = names := Text.pieces_intercalate hslash hne
    rw [hsame] at hpieces
    exact (hnames "" (by simp [hpieces])).1 rfl
  exact eq_of_text_eq (((spells_ofPlace place).text_join hplace hrel).trans
    (text_ofPlace_append place hne).symm)

end Place

end SolutionTree.Path
