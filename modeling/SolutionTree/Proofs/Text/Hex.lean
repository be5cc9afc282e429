import SolutionTree.Text.Blank
import SolutionTree.Text.Hex

/-!
Characters and hexadecimal digits in either case.

Case is folded on the letters from `A` to `Z` alone (`toNat_toLower`). A character
is read as a digit when its lower-case form is that digit
(`digitValue?_eq_some_iff`), and a text is read as bytes when its lower-case form is
how those bytes are written (`toBytes?_eq_some_iff`).
-/

namespace SolutionTree.Text

/-! ### Characters in either case -/

variable {c d : Char}

/-- The lower-case form of a character is 32 further on for a letter from `A` to
`Z`, and the character itself for any other. -/
theorem toNat_toLower (c : Char) :
    c.toLower.toNat = if 65 ≤ c.toNat ∧ c.toNat ≤ 90 then c.toNat + 32 else c.toNat := by
  have hupper : (c.val ≥ 'A'.val ∧ c.val ≤ 'Z'.val) ↔ 65 ≤ c.toNat ∧ c.toNat ≤ 90 := Iff.rfl
  by_cases h : 65 ≤ c.toNat ∧ c.toNat ≤ 90
  · have hfits : c.toNat + 32 < 2 ^ 32 := by omega
    have hshift : (c.val + 32).toNat = c.toNat + 32 := by
      rw [UInt32.toNat_add]
      exact Nat.mod_eq_of_lt hfits
    unfold Char.toLower
    rw [if_pos h, dif_pos (hupper.mpr h)]
    exact hshift
  · unfold Char.toLower
    rw [if_neg h, dif_neg (mt hupper.mp h)]

/-- A character whose lower-case form is no letter is that form. -/
theorem toLower_eq_iff (hlower : ¬ (97 ≤ d.toNat ∧ d.toNat ≤ 122))
    (hupper : ¬ (65 ≤ d.toNat ∧ d.toNat ≤ 90)) : c.toLower = d ↔ c = d := by
  rw [← Char.toNat_inj, ← Char.toNat_inj, toNat_toLower]
  split
  · omega
  · omega

/-- A character whose lower case is ASCII is ASCII itself. -/
theorem utf8Size_of_toLower (h : c.toLower.toNat < 128) : c.utf8Size = 1 := by
  rw [toNat_toLower] at h
  have hc : c.toNat < 128 := by
    split at h
    · omega
    · exact h
  have hval : c.val ≤ 0x7f := UInt32.le_iff_toNat_le.mpr (Nat.le_of_lt_succ hc)
  simp [Char.utf8Size, hval]

theorem toLower_of_isBlank (h : isBlank c = true) : c.toLower = c := by
  have hupper : ¬ (65 ≤ c.toNat ∧ c.toNat ≤ 90) := by
    intro hrange
    simp [isBlank] at h
    omega
  rw [← Char.toNat_inj, toNat_toLower, if_neg hupper]

/-! ### Digits in either case -/

namespace Hex

theorem toNat_digit_lower {n : Nat} (h : n < 16) :
    (digit .lower n).toNat = if n < 10 then 48 + n else 87 + n := by
  have key : ∀ i : Fin 16,
      (digit .lower i).toNat = if i.val < 10 then 48 + i.val else 87 + i.val := by decide
  exact key ⟨n, h⟩

/-- A character has the value of the digit that it is in lower case. -/
theorem digitValue?_eq_some_iff {n : Nat} :
    digitValue? c = some n ↔ n < 16 ∧ c.toLower = digit .lower n := by
  have hdigit : n < 16 → (c.toLower = digit .lower n ↔
      c.toLower.toNat = if n < 10 then 48 + n else 87 + n) := by
    intro hn
    rw [← toNat_digit_lower hn, Char.toNat_inj]
  simp only [digitValue?]
  constructor
  · intro h
    have hn : n < 16 := by grind
    refine ⟨hn, ?_⟩
    rw [hdigit hn, toNat_toLower]
    grind
  · rintro ⟨hn, h⟩
    rw [hdigit hn, toNat_toLower] at h
    grind

theorem ascii_of_isSome_digitValue? (h : (digitValue? c).isSome = true) :
    c.toNat < 128 ∧ isBlank c = false := by
  obtain ⟨n, hn⟩ := Option.isSome_iff_exists.mp h
  simp only [digitValue?] at hn
  have hrange : 48 ≤ c.toNat ∧ c.toNat ≤ 102 := by grind
  refine ⟨by omega, ?_⟩
  simp [isBlank]
  omega

/-- Two values below sixteen make a byte when they are those of its digits. -/
theorem ofNat_eq_iff {h l : Nat} {b : UInt8} (hh : h < 16) (hl : l < 16) :
    UInt8.ofNat (16 * h + l) = b ↔ h = b.toNat / 16 ∧ l = b.toNat % 16 := by
  have hb := b.toNat_lt
  rw [← UInt8.toNat_inj, UInt8.toNat_ofNat']
  omega

/-- **A text is read as bytes when it is how they are written**, in any mixture of
cases. -/
theorem toBytes?_eq_some_iff {cs : List Char} {bs : List UInt8} :
    toBytes? cs = some bs ↔ cs.map Char.toLower = bs.flatMap (octet .lower) := by
  fun_induction toBytes? cs generalizing bs with
  | case1 =>
    cases bs with
    | nil => simp
    | cons b bs => simp [octet]
  | case2 c =>
    cases bs with
    | nil => simp
    | cons b bs => simp [octet]
  | case3 hi lo rest ih =>
    cases bs with
    | nil => simp [Option.bind_eq_some_iff]
    | cons b bs =>
      have hb := b.toNat_lt
      have hhigh : b.toNat / 16 < 16 := by omega
      have hlow : b.toNat % 16 < 16 := by omega
      simp only [Option.bind_eq_bind, Option.bind_eq_some_iff, Option.pure_def, Option.some.injEq,
        List.cons.injEq, List.map_cons, List.flatMap_cons, octet, List.cons_append, List.nil_append]
      constructor
      · rintro ⟨h, hh, l, hl, bs', hbs, hbyte, rfl⟩
        obtain ⟨hh', hhi⟩ := digitValue?_eq_some_iff.mp hh
        obtain ⟨hl', hlo⟩ := digitValue?_eq_some_iff.mp hl
        obtain ⟨rfl, rfl⟩ := (ofNat_eq_iff hh' hl').mp hbyte
        exact ⟨hhi, hlo, ih.mp hbs⟩
      · rintro ⟨hhi, hlo, hrest⟩
        exact ⟨_, digitValue?_eq_some_iff.mpr ⟨hhigh, hhi⟩, _,
          digitValue?_eq_some_iff.mpr ⟨hlow, hlo⟩, bs, ih.mpr hrest,
          (ofNat_eq_iff hhigh hlow).mpr ⟨rfl, rfl⟩, rfl⟩

end Hex

end SolutionTree.Text
