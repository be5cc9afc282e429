import Mathlib.Data.Bool.AllAny
import SolutionTree.Proofs.Identifier.Counting
import SolutionTree.Proofs.Text.Blank
import SolutionTree.Proofs.Text.Hex

/-!
Which texts are read as an identifier.

`Spells` says it of a text without blanks around it: one of four forms, in any
mixture of cases. The reader first tells the forms apart by the length in bytes,
which is that of the form in either case (`Spells.byteLength_eq`), and so it accepts
what spells an identifier and nothing else (`parseExact_eq_ok_iff`,
`parse_eq_ok_iff`).
-/

namespace SolutionTree.Identifier

open Text

/-- Whether characters spell an identifier: its digits alone, with hyphens between
them, with hyphens and in braces, or with hyphens and behind `urn:uuid:`, each in
any mixture of cases. -/
inductive Spells (id : Identifier) (cs : List Char) : Prop where
  | digits : cs.map Char.toLower = id.digits .lower → Spells id cs
  | hyphenated : cs.map Char.toLower = id.hyphenated .lower → Spells id cs
  | braced : cs.map Char.toLower = '{' :: id.hyphenated .lower ++ ['}'] → Spells id cs
  | urn : cs.map Char.toLower = "urn:uuid:".toList ++ id.hyphenated .lower → Spells id cs

/-! ### Digits and hyphens -/

variable {id : Identifier} {cs ds : List Char} {n : Nat} {lengths : List Nat}

/-- The first group is closed by a hyphen, and the others follow. -/
theorem hyphenate_append {front rest : List Char} (hfront : front.length = n) (hne : lengths ≠ []) :
    hyphenate (n :: lengths) (front ++ rest) = front ++ '-' :: hyphenate lengths rest := by
  rw [hyphenate, List.take_left' hfront, List.drop_left' hfront]
  exact hne

/-- A first group, its hyphen and the rest. -/
theorem exists_hyphenate_cons (hne : lengths ≠ []) (hlength : ds.length = n + lengths.sum) :
    ∃ front rest, ds = front ++ rest ∧ front.length = n ∧ rest.length = lengths.sum ∧
      hyphenate (n :: lengths) ds = front ++ '-' :: hyphenate lengths rest := by
  have hfront : (ds.take n).length = n := by simp [hlength]
  refine ⟨ds.take n, ds.drop n, (List.take_append_drop n ds).symm, hfront, by simp [hlength], ?_⟩
  rw [← hyphenate_append hfront hne, List.take_append_drop]

theorem map_hyphenate (f : Char → Char) (h : f '-' = '-') (lengths : List Nat) (ds : List Char) :
    (hyphenate lengths ds).map f = hyphenate lengths (ds.map f) := by
  fun_induction hyphenate lengths ds with
  | case1 ds => rfl
  | case2 n ds => rw [List.map_take]; rfl
  | case3 n lengths ds hne ih =>
    rw [hyphenate, List.map_append, List.map_cons, h, ih, List.map_take, List.map_drop]
    exact hne

/-- **Digits are read between hyphens that stand where the groups end.** A hyphen
anywhere else, or a group that is too short, leaves none. -/
theorem unhyphenate?_eq_some_iff :
    unhyphenate? lengths cs = some ds ↔ ds.length = lengths.sum ∧ cs = hyphenate lengths ds := by
  fun_induction unhyphenate? lengths cs generalizing ds with
  | case1 cs hempty =>
    obtain rfl := List.isEmpty_iff.mp hempty
    simp [hyphenate, eq_comm]
  | case2 cs hempty =>
    simp only [reduceCtorEq, hyphenate, false_iff, not_and]
    rintro - rfl
    exact hempty rfl
  | case3 cs =>
    simp only [Option.some.injEq, List.sum_singleton, hyphenate]
    constructor
    · rintro rfl
      exact ⟨rfl, (List.take_length).symm⟩
    · rintro ⟨hlength, hcs⟩
      rw [hcs, ← hlength, List.take_length]
  | case4 n cs hlength =>
    simp only [reduceCtorEq, List.sum_singleton, hyphenate, false_iff, not_and]
    rintro rfl rfl
    exact hlength (by simp)
  | case5 n lengths cs hne rest hdrop ih =>
    have hfront : (cs.take n).length = n := by
      have hlength := congrArg List.length hdrop
      simp only [List.length_drop, List.length_cons] at hlength
      simp only [List.length_take]
      omega
    have hcs : cs = cs.take n ++ '-' :: rest := by rw [← hdrop, List.take_append_drop]
    rw [Option.map_eq_some_iff, List.sum_cons]
    constructor
    · rintro ⟨es, hes, rfl⟩
      obtain ⟨hlength, hrest⟩ := ih.mp hes
      refine ⟨by rw [List.length_append, hfront, hlength], ?_⟩
      rw [hyphenate_append hfront hne, ← hrest, ← hcs]
    · rintro ⟨hlength, heq⟩
      obtain ⟨front, es, rfl, hfront', hes, hds⟩ := exists_hyphenate_cons hne hlength
      rw [hds] at heq
      subst heq
      rw [List.drop_left' hfront'] at hdrop
      exact ⟨es, ih.mpr ⟨hes, (List.cons.inj hdrop).2.symm⟩, by rw [List.take_left' hfront']⟩
  | case6 n lengths cs hne hnone =>
    simp only [reduceCtorEq, List.sum_cons, false_iff, not_and]
    intro hlength hcs
    obtain ⟨front, rest, -, hfront, -, heq⟩ := exists_hyphenate_cons hne hlength
    exact hnone (hyphenate lengths rest) (by rw [hcs, heq, List.drop_left' hfront])

/-- Thirty-two digits spell an identifier when they are its digits up to the case of
letters. -/
theorem ofDigits?_eq_some_iff :
    ofDigits? cs = some id ↔ cs.map Char.toLower = id.digits .lower := by
  rw [digits, ← Hex.toBytes?_eq_some_iff, ofDigits?]
  constructor
  · intro h
    obtain ⟨bytes, hbytes, h⟩ := Option.bind_eq_some_iff.mp h
    split at h
    · rw [hbytes, ← Option.some.inj h]
      rfl
    · contradiction
  · intro h
    rw [h, Option.bind_eq_bind, Option.bind_some, dif_pos (by simp)]
    exact congrArg some (eq_of_toList rfl)

/-- The case of letters does not count for where the hyphens stand. -/
theorem unhyphenate?_map_toLower (lengths : List Nat) (cs : List Char) :
    unhyphenate? lengths (cs.map Char.toLower) =
      (unhyphenate? lengths cs).map (List.map Char.toLower) := by
  fun_induction unhyphenate? lengths cs with
  | case1 cs hempty => simp [unhyphenate?, hempty]
  | case2 cs hempty => simp [unhyphenate?, hempty]
  | case3 cs => simp [unhyphenate?]
  | case4 n cs hlength => simp [unhyphenate?, hlength]
  | case5 n lengths cs hne rest hdrop ih =>
    have hdrop' : (cs.map Char.toLower).drop n = '-' :: rest.map Char.toLower := by
      rw [← List.map_drop, hdrop, List.map_cons]
      rfl
    rw [unhyphenate?.eq_3 _ _ _ hne]
    simp only [hdrop', ih]
    simp [Function.comp_def]
  | case6 n lengths cs hne hnone =>
    have hnone' : ∀ rest, (cs.map Char.toLower).drop n ≠ '-' :: rest := by
      intro rest h
      rw [← List.map_drop, List.map_eq_cons_iff] at h
      obtain ⟨c, rest', hdrop, hc, -⟩ := h
      rw [toLower_eq_iff (by decide) (by decide)] at hc
      exact hnone rest' (hc ▸ hdrop)
    rw [unhyphenate?.eq_3 _ _ _ hne]
    split
    · next rest h => exact absurd h (hnone' rest)
    · rfl

/-- **The hyphenated form is read in any mixture of cases**, and nothing else is. -/
theorem ofHyphenated?_eq_some_iff :
    ofHyphenated? cs = some id ↔ cs.map Char.toLower = id.hyphenated .lower := by
  rw [ofHyphenated?, Option.bind_eq_some_iff]
  constructor
  · rintro ⟨ds, hds, hid⟩
    obtain ⟨-, rfl⟩ := unhyphenate?_eq_some_iff.mp hds
    rw [map_hyphenate _ rfl, ofDigits?_eq_some_iff.mp hid, hyphenated]
  · intro h
    have hread : unhyphenate? groupLengths (cs.map Char.toLower) = some (id.digits .lower) :=
      unhyphenate?_eq_some_iff.mpr ⟨length_digits .lower id, h⟩
    rw [unhyphenate?_map_toLower, Option.map_eq_some_iff] at hread
    obtain ⟨ds, hds, hlower⟩ := hread
    exact ⟨ds, hds, ofDigits?_eq_some_iff.mpr hlower⟩

/-- What is read as the hyphenated form of an identifier is that form, up to the
case of letters, and nothing else. -/
theorem parseHyphenated_eq_ok_iff :
    parseHyphenated cs = .ok id ↔ cs.map Char.toLower = id.hyphenated .lower := by
  rw [← ofHyphenated?_eq_some_iff, parseHyphenated]
  cases ofHyphenated? cs with
  | none => simp
  | some found => simp

/-! ### The four forms -/

theorem byteLength_eq_length (h : ∀ c ∈ cs, c.utf8Size = 1) :
    byteLength cs = cs.length := by
  induction cs with
  | nil => rfl
  | cons c cs ih =>
    have ⟨hc, hcs⟩ := List.forall_mem_cons.mp h
    rw [byteLength, hc, ih hcs, List.length_cons, Nat.add_comm]

theorem length_hyphenate (hne : lengths ≠ []) (h : ds.length = lengths.sum) :
    (hyphenate lengths ds).length + 1 = ds.length + lengths.length := by
  induction lengths generalizing ds with
  | nil => contradiction
  | cons n lengths ih =>
    by_cases hrest : lengths = []
    · subst hrest
      simp only [List.sum_singleton] at h
      simp [hyphenate, h]
    · obtain ⟨front, rest, rfl, hfront, hsum, heq⟩ := exists_hyphenate_cons hrest h
      have hlength := ih hrest hsum
      simp only [heq, List.length_append, List.length_cons]
      omega

theorem length_hyphenated (style : Hex.Case) (id : Identifier) :
    (id.hyphenated style).length = 36 := by
  have hgroups : groupLengths ≠ [] := by decide
  have h := length_hyphenate hgroups (length_digits style id)
  rw [length_digits] at h
  exact Nat.succ.inj h

/-- Something stands between braces when one is in front and the other one at the
end; there is nothing else to it. -/
theorem insideBraces?_eq_some_iff {inside : List Char} :
    insideBraces? cs = some inside ↔ cs = '{' :: inside ++ ['}'] := by
  unfold insideBraces?
  split
  · next rest =>
    rw [List.cons_append, List.cons.injEq, eq_self, true_and]
    split
    · next hlast =>
      obtain ⟨front, rfl⟩ := List.getLast?_eq_some_iff.mp hlast
      simp
    · next hlast =>
      simp only [reduceCtorEq, false_iff]
      rintro rfl
      exact hlast (by simp)
  · next hnone =>
    simp only [reduceCtorEq, false_iff]
    rintro rfl
    exact hnone _ rfl

/-- Braces have no case. -/
theorem exists_inside_of_map_toLower (h : cs.map Char.toLower = '{' :: ds ++ ['}']) :
    ∃ inside, insideBraces? cs = some inside ∧ inside.map Char.toLower = ds := by
  obtain ⟨front, last, rfl, hfront, hlast⟩ := List.map_eq_append_iff.mp h
  obtain ⟨first, inside, rfl, hfirst, hinside⟩ := List.map_eq_cons_iff.mp hfront
  obtain ⟨final, rfl, hfinal⟩ := List.map_eq_singleton_iff.mp hlast
  rw [toLower_eq_iff (by decide) (by decide)] at hfirst hfinal
  subst hfirst hfinal
  exact ⟨inside, insideBraces?_eq_some_iff.mpr rfl, hinside⟩

namespace Spells

/-- The characters of the four forms in lower case are ASCII, and no blanks. -/
theorem ascii (h : id.Spells cs) :
    ∀ c ∈ cs.map Char.toLower, c.toNat < 128 ∧ isBlank c = false := by
  have hdigits : ∀ c ∈ id.digits .lower, c.toNat < 128 ∧ isBlank c = false :=
    fun c hc => Hex.ascii_of_isSome_digitValue? (isSome_digitValue?_of_mem_digits hc)
  have hhyphenated : ∀ c ∈ id.hyphenated .lower, c.toNat < 128 ∧ isBlank c = false := by
    intro c hc
    rcases mem_hyphenate hc with rfl | hc
    · decide
    · exact hdigits c hc
  rcases h with h | h | h | h
  · rwa [h]
  · rwa [h]
  · rw [h, List.cons_append, List.forall_mem_cons, List.forall_mem_append]
    exact ⟨by decide, hhyphenated, List.forall_mem_singleton.mpr (by decide)⟩
  · rw [h, List.forall_mem_append]
    exact ⟨List.all_iff_forall_prop.mp (by decide), hhyphenated⟩

/-- No form of an identifier has a blank in it, and so trimming leaves it alone. -/
theorem not_blank (h : id.Spells cs) : ∀ c ∈ cs, isBlank c = false := by
  intro c hc
  obtain ⟨-, hlower⟩ := h.ascii _ (List.mem_map_of_mem hc)
  rw [Bool.eq_false_iff]
  intro hblank
  rw [toLower_of_isBlank hblank, hblank] at hlower
  contradiction

/-- The length in bytes is that of the form. -/
theorem byteLength_eq (h : id.Spells cs) : byteLength cs = (cs.map Char.toLower).length := by
  rw [List.length_map]
  exact byteLength_eq_length fun c hc => utf8Size_of_toLower (h.ascii _ (List.mem_map_of_mem hc)).1

end Spells

/-- **A text is read as an identifier when it spells it.** The form is told by the
length first, and the lengths of the four forms differ. -/
theorem parseExact_eq_ok_iff : parseExact cs = .ok id ↔ id.Spells cs := by
  constructor
  · intro h
    unfold parseExact at h
    split at h
    · split at h
      next found hfound =>
        obtain rfl := Except.ok.inj h
        exact .digits (ofDigits?_eq_some_iff.mp hfound)
      · contradiction
    · exact .hyphenated (parseHyphenated_eq_ok_iff.mp h)
    next inside hinside =>
      rw [insideBraces?_eq_some_iff.mp hinside]
      refine .braced ?_
      simp [parseHyphenated_eq_ok_iff.mp h]
    · split at h
      next hurn =>
        have hstart := beq_iff_eq.mp hurn
        refine .urn ?_
        rw [← List.take_append_drop urnStart.length cs, List.map_append, hstart,
          parseHyphenated_eq_ok_iff.mp h]
        rfl
      · contradiction
    · contradiction
  · intro h
    have hlength := h.byteLength_eq
    rcases h with h | h | h | h
    · rw [h, length_digits] at hlength
      simp only [parseExact, hlength, ofDigits?_eq_some_iff.mpr h]
    · rw [h, length_hyphenated] at hlength
      simp only [parseExact, hlength, parseHyphenated_eq_ok_iff.mpr h]
    · obtain ⟨inside, hinside, hlower⟩ := exists_inside_of_map_toLower h
      rw [h, List.length_append, List.length_cons, length_hyphenated] at hlength
      simp only [parseExact, hlength, hinside, List.length_singleton,
        parseHyphenated_eq_ok_iff.mpr hlower]
    · rw [h, List.length_append, length_hyphenated] at hlength
      have hstart : (cs.take urnStart.length).map Char.toLower = urnStart := by
        rw [List.map_take, h]
        exact List.take_left
      have hrest : (cs.drop urnStart.length).map Char.toLower = id.hyphenated .lower := by
        rw [List.map_drop, h]
        exact List.drop_left
      have hurn : startsAsUrn cs = true := beq_iff_eq.mpr hstart
      have hsum : byteLength cs = 45 := hlength
      simp only [parseExact, hsum, hurn, ↓reduceIte, parseHyphenated_eq_ok_iff.mpr hrest]

/-- **A text is read as an identifier when it spells it, with blanks around it or
without.** -/
theorem parse_eq_ok_iff {s : String} :
    parse s = .ok id ↔ ∃ before cs after, s.toList = before ++ cs ++ after ∧
      (∀ c ∈ before, isBlank c = true) ∧ (∀ c ∈ after, isBlank c = true) ∧ id.Spells cs := by
  rw [parse, parseExact_eq_ok_iff]
  constructor
  · intro h
    obtain ⟨before, after, hbefore, hafter, hs⟩ := exists_blanks_trim s.toList
    exact ⟨before, _, after, hs, hbefore, hafter, h⟩
  · rintro ⟨before, cs, after, hs, hbefore, hafter, h⟩
    rwa [hs, trim_append hbefore h.not_blank hafter]

example : (parse "\u3000Urn:uUid:7c9E667a-7425-30DE-944b-F07fC1f90ae8\r\n").map text =
    .ok "\x7b7C9E667A-7425-30DE-944B-F07FC1F90AE8\x7d" := by
  decide +kernel

theorem map_toLower_digits (style : Hex.Case) (id : Identifier) :
    (id.digits style).map Char.toLower = id.digits .lower :=
  Hex.toBytes?_eq_some_iff.mp (Hex.toBytes?_octets style id.bytes.toList)

/-- The form that is printed is one of those that are read. -/
theorem spells_text (id : Identifier) : id.Spells id.text.toList := by
  refine .braced ?_
  have hhyphenated : (id.hyphenated .upper).map Char.toLower = id.hyphenated .lower := by
    rw [hyphenated, map_hyphenate _ rfl, map_toLower_digits, hyphenated]
  rw [text, String.toList_ofList, List.map_append, List.map_cons, hhyphenated]
  rfl

end SolutionTree.Identifier
