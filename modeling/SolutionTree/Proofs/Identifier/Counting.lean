import Mathlib.Data.List.Induction
import Mathlib.Data.List.Nodup
import Mathlib.Tactic.Ring
import SolutionTree.Identifier.Text

/-!
Identifiers count upwards.

The bytes of an identifier are the digits of its value to the base 256, so that
adding along them adds to the value (`value_add`), their order is that of the values
(`compare_eq_compare_value`), and the text spells the value (`numeral_text`). Draws
from a supply therefore go through the values one by one, modulo the number of
identifiers (`draws_count_up`).
-/

namespace SolutionTree

/-- The number that the hexadecimal digits of a text spell; other characters count
for nothing. -/
def Text.Hex.numeral (cs : List Char) : Nat :=
  (cs.filterMap digitValue?).foldl (fun n d => 16 * n + d) 0

namespace Identifier

open Text

/-! ### Values of bytes -/

/-- The last byte counts for itself, and those before it for 256 times as much. -/
theorem valueOf_concat (bs : List UInt8) (b : UInt8) :
    valueOf (bs ++ [b]) = 256 * valueOf bs + b.toNat := by
  simp [valueOf]

theorem valueOf_cons (b : UInt8) (bs : List UInt8) :
    valueOf (b :: bs) = b.toNat * 256 ^ bs.length + valueOf bs := by
  induction bs using List.reverseRecOn with
  | nil => simp [valueOf]
  | append_singleton bs c ih =>
    rw [← List.cons_append, valueOf_concat, ih, valueOf_concat, List.length_append,
      List.length_singleton, pow_succ]
    ring

/-- Bytes spell a number below the power of 256 that their count gives. -/
theorem valueOf_lt (bs : List UInt8) : valueOf bs < 256 ^ bs.length := by
  induction bs with
  | nil => simp [valueOf]
  | cons b bs ih =>
    have hb := b.toNat_lt
    calc valueOf (b :: bs) = b.toNat * 256 ^ bs.length + valueOf bs := valueOf_cons b bs
      _ < b.toNat * 256 ^ bs.length + 256 ^ bs.length := by omega
      _ = (b.toNat + 1) * 256 ^ bs.length := (Nat.succ_mul _ _).symm
      _ ≤ 256 * 256 ^ bs.length := Nat.mul_le_mul_right _ (by omega)
      _ = 256 ^ (b :: bs).length := by rw [List.length_cons, pow_succ, mul_comm]

/-- Adding along bytes that stand lowest first adds to their value, up to what they
can hold. -/
theorem valueOf_reverse_plus (bs : List UInt8) (n : Nat) :
    valueOf (plus bs n).reverse = (valueOf bs.reverse + n) % 256 ^ bs.length := by
  induction bs generalizing n with
  | nil => simp [plus, valueOf, Nat.mod_one]
  | cons b bs ih =>
    have hlow : (256 * valueOf bs.reverse + b.toNat + n) % 256 = (b.toNat + n) % 256 := by omega
    have hhigh : (256 * valueOf bs.reverse + b.toNat + n) / 256 =
        valueOf bs.reverse + (b.toNat + n) / 256 := by omega
    rw [plus, List.reverse_cons, List.reverse_cons, valueOf_concat, valueOf_concat, ih,
      List.length_cons, pow_succ', Nat.mod_mul, hlow, hhigh, UInt8.toNat_ofNat']
    omega

theorem compare_add_left (k m n : Nat) : Ord.compare (k + m) (k + n) = Ord.compare m n := by
  simp [Nat.compare_eq_ite_lt]

/-- Bytes of one number compare as their values do: the first byte that differs
outweighs all behind it. -/
theorem compare_eq_compare_valueOf {bs cs : List UInt8} (h : bs.length = cs.length) :
    Ord.compare bs cs = Ord.compare (valueOf bs) (valueOf cs) := by
  induction bs generalizing cs with
  | nil =>
    obtain rfl := List.length_eq_zero_iff.mp h.symm
    rfl
  | cons b bs ih =>
    cases cs with
    | nil => contradiction
    | cons c cs =>
      have hlength : bs.length = cs.length := Nat.succ.inj h
      have hbs : valueOf bs < 256 ^ cs.length := hlength ▸ valueOf_lt bs
      have hcs := valueOf_lt cs
      rw [List.compare_eq_compareLex, List.compareLex_cons_cons, ← List.compare_eq_compareLex,
        ih hlength, valueOf_cons, valueOf_cons, UInt8.compare_eq_toNat_compare_toNat, hlength]
      rcases Nat.lt_trichotomy b.toNat c.toNat with hlt | heq | hgt
      · have hstep : (b.toNat + 1) * 256 ^ cs.length ≤ c.toNat * 256 ^ cs.length :=
          Nat.mul_le_mul_right _ hlt
        have hvalue : b.toNat * 256 ^ cs.length + valueOf bs <
            c.toNat * 256 ^ cs.length + valueOf cs := by
          rw [Nat.succ_mul] at hstep
          omega
        rw [Nat.compare_eq_lt.mpr hlt, Nat.compare_eq_lt.mpr hvalue]
        rfl
      · rw [heq, compare_add_left, Nat.compare_eq_eq.mpr rfl]
        rfl
      · have hstep : (c.toNat + 1) * 256 ^ cs.length ≤ b.toNat * 256 ^ cs.length :=
          Nat.mul_le_mul_right _ hgt
        have hvalue : c.toNat * 256 ^ cs.length + valueOf cs <
            b.toNat * 256 ^ cs.length + valueOf bs := by
          rw [Nat.succ_mul] at hstep
          omega
        rw [Nat.compare_eq_gt.mpr hgt, Nat.compare_eq_gt.mpr hvalue]
        rfl

/-! ### Values of identifiers -/

theorem value_lt (id : Identifier) : id.value < 2 ^ 128 := by
  have h := valueOf_lt id.bytes.toList
  rwa [Vector.length_toList, show (256 : Nat) ^ 16 = 2 ^ 128 from rfl] at h

/-- Counting on from an identifier is adding to the number of its text, and comes
around after all ones. -/
theorem value_add (id : Identifier) (n : Nat) : (id.add n).value = (id.value + n) % 2 ^ 128 := by
  have h := valueOf_reverse_plus id.bytes.toList.reverse n
  simpa [value, add] using h

/-- Identifiers are ordered like the numbers that their texts spell, since their
bytes stand with the highest first. -/
theorem compare_eq_compare_value (a b : Identifier) :
    a.compare b = Ord.compare a.value b.value :=
  compare_eq_compare_valueOf (by simp)

/-- Different identifiers spell different numbers. -/
theorem value_injective {a b : Identifier} (h : a.value = b.value) : a = b := by
  have hcompare : Ord.compare a.bytes.toList b.bytes.toList = .eq := by
    rw [compare_eq_compare_valueOf (by simp)]
    exact Nat.compare_eq_eq.mpr h
  exact eq_of_toList (Std.LawfulEqOrd.eq_of_compare hcompare)

theorem value_nil : nil.value = 0 := by decide

/-! ### Texts of identifiers -/

theorem filterMap_octet (style : Hex.Case) (b : UInt8) :
    (Hex.octet style b).filterMap Hex.digitValue? = [b.toNat / 16, b.toNat % 16] := by
  have hb := b.toNat_lt
  simp [Hex.octet, Hex.digitValue?_digit, show b.toNat / 16 < 16 by omega,
    show b.toNat % 16 < 16 by omega]

/-- The digits of bytes spell the number of the bytes, in either case of the
letters. -/
theorem numeral_octets (style : Hex.Case) (bs : List UInt8) :
    Hex.numeral (bs.flatMap (Hex.octet style)) = valueOf bs := by
  induction bs using List.reverseRecOn with
  | nil => rfl
  | append_singleton bs b ih =>
    rw [Hex.numeral] at ih ⊢
    rw [List.flatMap_append, List.filterMap_append, List.foldl_append, ih, List.flatMap_singleton,
      filterMap_octet, valueOf_concat]
    simp only [List.foldl_cons, List.foldl_nil]
    omega

/-- Hyphens between digits are no digits. -/
theorem filterMap_hyphenate {lengths : List Nat} {cs : List Char}
    (h : cs.length ≤ lengths.sum) :
    (hyphenate lengths cs).filterMap Hex.digitValue? = cs.filterMap Hex.digitValue? := by
  fun_induction hyphenate lengths cs with
  | case1 cs =>
    obtain rfl : cs = [] := by simpa using h
    rfl
  | case2 n cs => rw [List.take_of_length_le (by simpa using h)]
  | case3 n lengths cs hne ih =>
    have hrest : (cs.drop n).length ≤ lengths.sum := by
      rw [List.length_drop]
      rw [List.sum_cons] at h
      omega
    have hhyphen : Hex.digitValue? '-' = none := by decide
    rw [List.filterMap_append, List.filterMap_cons_none hhyphen, ih hrest, ← List.filterMap_append,
      List.take_append_drop]

theorem length_digits (style : Hex.Case) (id : Identifier) : (id.digits style).length = 32 := by
  simp [digits, Hex.octet, List.length_flatMap]

/-- **The text of an identifier spells its value.** The permutation of the layout is
undone when it is printed, and hyphens and braces are no digits. -/
theorem numeral_text (id : Identifier) : Hex.numeral id.text.toList = id.value := by
  have hbrace : Hex.digitValue? '\x7b' = none ∧ Hex.digitValue? '\x7d' = none := by decide
  have hdigits : (id.hyphenated .upper).filterMap Hex.digitValue? =
      (id.digits .upper).filterMap Hex.digitValue? :=
    filterMap_hyphenate (by rw [length_digits]; decide)
  rw [value, ← numeral_octets .upper, text, String.toList_ofList, Hex.numeral, List.cons_append,
    List.filterMap_cons_none hbrace.1, List.filterMap_append, hdigits,
    List.filterMap_cons_none hbrace.2]
  simp [Hex.numeral, digits]

/-- Different identifiers are printed differently. -/
theorem text_injective {a b : Identifier} (h : a.text = b.text) : a = b := by
  apply value_injective
  rw [← numeral_text, ← numeral_text, h]

theorem isSome_digitValue?_of_mem_digits {style : Hex.Case} {id : Identifier} {c : Char}
    (h : c ∈ id.digits style) : (Hex.digitValue? c).isSome = true := by
  obtain ⟨b, -, hc⟩ := List.mem_flatMap.mp h
  have hb := b.toNat_lt
  simp only [Hex.octet, List.mem_cons, List.not_mem_nil, or_false] at hc
  rcases hc with rfl | rfl
  · rw [Hex.digitValue?_digit style (by omega), Option.isSome_some]
  · rw [Hex.digitValue?_digit style (by omega), Option.isSome_some]

theorem mem_hyphenate {lengths : List Nat} {cs : List Char} {c : Char}
    (h : c ∈ hyphenate lengths cs) : c = '-' ∨ c ∈ cs := by
  fun_induction hyphenate lengths cs with
  | case1 cs => contradiction
  | case2 n cs => exact .inr (List.mem_of_mem_take h)
  | case3 n lengths cs hne ih =>
    rcases List.mem_append.mp h with h | h
    · exact .inr (List.mem_of_mem_take h)
    · rcases List.mem_cons.mp h with h | h
      · exact .inl h
      · exact (ih h).imp_right List.mem_of_mem_drop

/-- The text of an identifier is digits, hyphens and braces. -/
theorem mem_text {id : Identifier} {c : Char} (h : c ∈ id.text.toList) :
    c = '\x7b' ∨ c = '\x7d' ∨ c = '-' ∨ (Hex.digitValue? c).isSome = true := by
  rw [text, String.toList_ofList, List.cons_append, List.mem_cons, List.mem_append,
    List.mem_singleton] at h
  rcases h with h | h | h
  · exact .inl h
  · exact .inr (.inr ((mem_hyphenate h).imp_right isSome_digitValue?_of_mem_digits))
  · exact .inr (.inl h)

/-- The text of an identifier is made of digits, hyphens and braces. -/
theorem nul_notMem_text (id : Identifier) : '\x00' ∉ id.text.toList := by
  intro h
  rcases mem_text h with h | h | h | h <;> revert h <;> decide

theorem text_ne_empty (id : Identifier) : id.text ≠ "" := by
  intro h
  have hcs := congrArg String.toList h
  simp [text] at hcs

/-! ### The order of identifiers -/

def ones : Identifier := ⟨Vector.replicate 16 255⟩

theorem value_ones : ones.value = 2 ^ 128 - 1 := by decide

theorem value_next (id : Identifier) : id.next.value = (id.value + 1) % 2 ^ 128 := by
  have h := value_add id 1
  rwa [add_succ, add_zero] at h

theorem next_ones : ones.next = nil := by
  apply value_injective
  rw [value_next, value_ones, value_nil]
  rfl

/-- Below all ones, the identifier that follows is a greater one, byte by byte as
well as by value. -/
theorem compare_next {id : Identifier} (h : id ≠ ones) : id.compare id.next = .lt := by
  have hlt := id.value_lt
  have hne : id.value ≠ 2 ^ 128 - 1 := by
    rw [← value_ones]
    exact fun e => h (value_injective e)
  have hnext : id.next.value = id.value + 1 := by
    rw [value_next]
    exact Nat.mod_eq_of_lt (by omega)
  rw [compare_eq_compare_value, hnext]
  exact Nat.compare_eq_lt.mpr (Nat.lt_succ_self _)

namespace Supply

variable {n : Nat}

/-! ### Draws -/

theorem skip_succ_eq_draw (supply : Supply) (n : Nat) :
    supply.skip (n + 1) = (supply.skip n).draw.2 := by
  rw [skip_add, skip_succ, skip_zero]

theorem current_skip_succ (supply : Supply) (n : Nat) :
    (supply.skip (n + 1)).current = (supply.skip n).current.next := by
  rw [skip_succ_eq_draw]
  rfl

/-- **After a number of draws** the value is larger by that number, modulo all
identifiers. -/
theorem value_skip (supply : Supply) (n : Nat) :
    (supply.skip n).current.value = (supply.current.value + n) % 2 ^ 128 := by
  rw [skip_eq_advance]
  exact value_add supply.current n

/-- The draws from a supply are the identifiers that it comes to, one step after
another. -/
theorem take_eq_map_skip (supply : Supply) (n : Nat) :
    (supply.take n).1 = (List.range n).map fun i => (supply.skip (i + 1)).current := by
  induction n generalizing supply with
  | zero => rfl
  | succ n ih =>
    rw [take, List.range_succ_eq_map, List.map_cons, List.map_map]
    simp only [ih]
    rfl

/-- No identifier is drawn twice before all have been drawn once. -/
theorem nodup_take (supply : Supply) (h : n ≤ 2 ^ 128) : (supply.take n).1.Nodup := by
  rw [take_eq_map_skip]
  refine List.Nodup.map_on ?_ List.nodup_range
  intro i hi j hj heq
  have hvalue := congrArg value heq
  rw [value_skip, value_skip] at hvalue
  rw [List.mem_range] at hi hj
  omega

/-- **Draws count upwards.** After any number of draws the text spells the seed's
number plus that of the draws, modulo `2 ^ 128`; no identifier comes twice before
all have come; and each one is greater than the one before it, except that `nil`
follows all ones. -/
theorem draws_count_up (supply : Supply) :
    (∀ n, Hex.numeral (supply.skip n).current.text.toList =
      (Hex.numeral supply.current.text.toList + n) % 2 ^ 128) ∧
    (∀ n, (supply.take n).1 = (List.range n).map fun i => (supply.skip (i + 1)).current) ∧
    (∀ n, n ≤ 2 ^ 128 → (supply.take n).1.Nodup) ∧
    ∀ n, ((supply.skip n).current ≠ ones →
        (supply.skip n).current.compare (supply.skip (n + 1)).current = .lt) ∧
      ((supply.skip n).current = ones → (supply.skip (n + 1)).current = nil) := by
  refine ⟨?_, supply.take_eq_map_skip, fun n => supply.nodup_take, ?_⟩
  · intro n
    rw [numeral_text, numeral_text, value_skip]
  · intro n
    rw [current_skip_succ]
    refine ⟨compare_next, ?_⟩
    intro h
    rw [h, next_ones]

/-- A supply whose first draw gives all ones. -/
def beforeOnes : Supply := ⟨⟨(Vector.replicate 16 255).set 15 254⟩⟩

/-- From the last but one identifier, draws lead to all ones and then come around to
nil. -/
theorem draws_count_up_beforeOnes :
    (3 ≤ 2 ^ 128 ∧ (beforeOnes.take 3).1.Nodup) ∧
    ((beforeOnes.skip 0).current ≠ ones ∧
      (beforeOnes.skip 0).current.compare (beforeOnes.skip 1).current = .lt) ∧
    (beforeOnes.skip 1).current = ones ∧ (beforeOnes.skip 2).current = nil := by
  have hones : (beforeOnes.skip 1).current = ones := by decide +kernel
  have hbelow : (beforeOnes.skip 0).current ≠ ones := by decide
  obtain ⟨-, -, hdistinct, horder⟩ := draws_count_up beforeOnes
  exact ⟨⟨by decide, hdistinct 3 (by decide)⟩, ⟨hbelow, (horder 0).1 hbelow⟩,
    hones, (horder 1).2 hones⟩

end Supply

end Identifier

end SolutionTree
