import SolutionTree.Proofs.Identifier.Reading
import SolutionTree.Proofs.Text.Bytes

/-!
The representations of an identifier agree.

Bytes, their digits and the text with hyphens between them all differ first at the
same place (`DiffersBelow`), so identifiers are ordered as their texts are
(`compare_eq_lt_iff`). Together with the layout and with what is read back this is
`representations_agree`.
-/

namespace SolutionTree.Identifier

open Text

variable {cs ds : List Char} {lengths : List Nat}

/-! ### The order of texts -/

/-- Whether two lists first differ at a position where the former has less. -/
def DiffersBelow {α : Type} [LT α] (xs ys : List α) : Prop :=
  ∃ front x y xs' ys', xs = front ++ x :: xs' ∧ ys = front ++ y :: ys' ∧ x < y

namespace DiffersBelow

theorem lt {α : Type} [LT α] {xs ys : List α} (h : DiffersBelow xs ys) : xs < ys := by
  obtain ⟨front, x, y, xs', ys', rfl, rfl, hlt⟩ := h
  exact List.append_left_lt (.rel hlt)

/-- Lists that differ at some position still do when the same is put before both,
and anything behind. -/
theorem append {α : Type} [LT α] {xs ys : List α} (h : DiffersBelow xs ys)
    (before after after' : List α) :
    DiffersBelow (before ++ xs ++ after) (before ++ ys ++ after') := by
  obtain ⟨front, x, y, xs', ys', rfl, rfl, hlt⟩ := h
  exact ⟨before ++ front, x, y, xs' ++ after, ys' ++ after', by simp, by simp, hlt⟩

/-- Two lists that are put together of as long parts differ in the first part, or in
the second. -/
theorem of_append {α : Type} [LT α] {xs xs' ys ys' : List α}
    (h : DiffersBelow (xs ++ ys) (xs' ++ ys')) (hlength : xs.length = xs'.length) :
    DiffersBelow xs xs' ∨ xs = xs' ∧ DiffersBelow ys ys' := by
  obtain ⟨front, x, y, rest, rest', heq, heq', hlt⟩ := h
  by_cases hfront : xs.length ≤ front.length
  · obtain ⟨middle, rfl, rfl⟩ : ∃ middle, front = xs ++ middle ∧ ys = middle ++ x :: rest := by
      rcases List.append_eq_append_iff.mp heq with h | ⟨middle, rfl, hmiddle⟩
      · exact h
      · obtain rfl : middle = [] := by simpa using hfront
        exact ⟨[], by simp, hmiddle.symm⟩
    rw [List.append_assoc] at heq'
    obtain ⟨rfl, rfl⟩ := List.append_inj heq' hlength.symm
    exact .inr ⟨rfl, middle, x, y, rest, rest', rfl, rfl, hlt⟩
  · left
    obtain ⟨k, hk⟩ := Nat.exists_eq_add_of_lt (Nat.lt_of_not_le hfront)
    have htake : ∀ z (zs : List α),
        (front ++ z :: zs).take xs.length = front ++ z :: zs.take k := by
      intro z zs
      have hcount : xs.length - front.length = k + 1 := by omega
      rw [List.take_append, List.take_of_length_le (by omega), hcount, List.take_succ_cons]
    refine ⟨front, x, y, rest.take k, rest'.take k, ?_, ?_, hlt⟩
    · rw [← htake, ← heq, List.take_left]
    · rw [← htake, ← heq', hlength, List.take_left]

end DiffersBelow

/-- Bytes of one length compare by the first position at which they differ. -/
theorem differsBelow_of_compare {bs cs : List UInt8} (hlength : bs.length = cs.length)
    (h : Ord.compare bs cs = .lt) : DiffersBelow bs cs := by
  induction bs generalizing cs with
  | nil =>
    obtain rfl := List.length_eq_zero_iff.mp hlength.symm
    contradiction
  | cons b bs ih =>
    cases cs with
    | nil => contradiction
    | cons c cs =>
      rw [List.compare_eq_compareLex, List.compareLex_cons_cons, ← List.compare_eq_compareLex,
        Ordering.then_eq_lt] at h
      rcases h with hlt | ⟨heq, hrest⟩
      · rw [UInt8.compare_eq_toNat_compare_toNat, Nat.compare_eq_lt] at hlt
        exact ⟨[], b, c, bs, cs, rfl, rfl, hlt⟩
      · obtain rfl := Std.LawfulEqOrd.eq_of_compare heq
        obtain ⟨front, x, y, xs', ys', rfl, rfl, hlt⟩ := ih (Nat.succ.inj hlength) hrest
        exact ⟨b :: front, x, y, xs', ys', rfl, rfl, hlt⟩

/-- Digits of either case are ordered like their values: letters stand behind the
ten others. -/
theorem digit_lt_digit (style : Hex.Case) {m n : Nat} (hlt : m < n) (hn : n < 16) :
    Hex.digit style m < Hex.digit style n := by
  have key : ∀ i j : Fin 16, i < j → Hex.digit style i < Hex.digit style j := by
    cases style <;> decide
  exact key ⟨m, by omega⟩ ⟨n, hn⟩ hlt

/-- Of two bytes, the digits of the lesser one come first. -/
theorem differsBelow_octet (style : Hex.Case) {b c : UInt8} (h : b < c) :
    DiffersBelow (Hex.octet style b) (Hex.octet style c) := by
  have hlt : b.toNat < c.toNat := h
  have hc := c.toNat_lt
  by_cases hhigh : b.toNat / 16 = c.toNat / 16
  · refine ⟨[Hex.digit style (b.toNat / 16)], _, _, [], [], rfl, ?_,
      digit_lt_digit style (m := b.toNat % 16) (n := c.toNat % 16) (by omega) (by omega)⟩
    rw [hhigh]
    rfl
  · exact ⟨[], _, _, _, _, rfl, rfl, digit_lt_digit style (by omega) (by omega)⟩

namespace DiffersBelow

/-- Bytes and their digits first differ at the same byte, and in the same direction.
-/
theorem octets (style : Hex.Case) {bs cs : List UInt8} (h : DiffersBelow bs cs) :
    DiffersBelow (bs.flatMap (Hex.octet style)) (cs.flatMap (Hex.octet style)) := by
  obtain ⟨front, b, c, bs', cs', rfl, rfl, hlt⟩ := h
  obtain ⟨front', x, y, xs', ys', hb, hc, hlt'⟩ := differsBelow_octet style hlt
  refine ⟨front.flatMap (Hex.octet style) ++ front', x, y, xs' ++ bs'.flatMap (Hex.octet style),
    ys' ++ cs'.flatMap (Hex.octet style), ?_, ?_, hlt'⟩
  · simp [hb]
  · simp [hc]

/-- Hyphens stand at the same places in both. -/
theorem hyphenate (h : DiffersBelow cs ds) (hcs : cs.length = lengths.sum)
    (hds : ds.length = lengths.sum) :
    DiffersBelow (hyphenate lengths cs) (hyphenate lengths ds) := by
  induction lengths generalizing cs ds with
  | nil =>
    obtain ⟨front, x, y, cs', ds', rfl, -, -⟩ := h
    simp at hcs
  | cons n lengths ih =>
    by_cases hne : lengths = []
    · subst hne
      rw [List.sum_singleton] at hcs hds
      rwa [Identifier.hyphenate, Identifier.hyphenate, List.take_of_length_le (by omega),
        List.take_of_length_le (by omega)]
    · obtain ⟨front, rest, rfl, hfront, hrest, heq⟩ := exists_hyphenate_cons hne hcs
      obtain ⟨front', rest', rfl, hfront', hrest', heq'⟩ := exists_hyphenate_cons hne hds
      rw [heq, heq']
      rcases h.of_append (hfront.trans hfront'.symm) with hgroup | ⟨rfl, hlater⟩
      · exact hgroup.append [] _ _
      · have hrests := (ih hlater hrest hrest').append (front ++ ['-']) [] []
        simpa using hrests

end DiffersBelow

/-- The text of the lesser of two identifiers is the lesser text. -/
theorem text_lt_text {a b : Identifier} (h : a.compare b = .lt) : a.text < b.text := by
  have hbytes : DiffersBelow a.bytes.toList b.bytes.toList :=
    differsBelow_of_compare (by simp) h
  have hhyphenated : DiffersBelow (a.hyphenated .upper) (b.hyphenated .upper) :=
    (hbytes.octets .upper).hyphenate (length_digits .upper a) (length_digits .upper b)
  rw [String.lt_iff_toList_lt, text, text, String.toList_ofList, String.toList_ofList]
  exact (hhyphenated.append ['{'] ['}'] ['}']).lt

/-- **The order of identifiers is that of the bytes of their texts.** Upper-case
digits are ordered like their values, and hyphens and braces stand at the same
places in all texts. -/
theorem compare_eq_lt_iff {a b : Identifier} :
    a.compare b = .lt ↔ Text.bytes a.text < Text.bytes b.text := by
  rw [bytes_lt_bytes_iff]
  refine ⟨text_lt_text, fun h => ?_⟩
  cases hcompare : a.compare b with
  | lt => rfl
  | eq =>
    obtain rfl := eq_of_toList (Std.LawfulEqOrd.eq_of_compare hcompare)
    exact absurd h (lt_irrefl _)
  | gt =>
    have hswap : b.compare a = .lt :=
      Std.OrientedOrd.eq_swap.trans (congrArg Ordering.swap hcompare)
    exact absurd h (lt_asymm (text_lt_text hswap))

/-- A layout is read back from the identifier that it makes. -/
@[simp] theorem toMixed_ofMixed (layout : Vector UInt8 16) : (ofMixed layout).toMixed = layout :=
  map_mixedOrder_twice layout

/-- **Layout, texts and order of identifiers agree.** The layout is recovered from
the identifier that it makes; an identifier is read from the text that is printed
and from whatever spells it with blanks around it, and from no other text; and
identifiers are ordered as the bytes of their texts are. -/
theorem representations_agree :
    (∀ layout, (ofMixed layout).toMixed = layout) ∧
    (∀ id : Identifier, parse id.text = .ok id) ∧
    (∀ (s : String) (id : Identifier), parse s = .ok id ↔
      ∃ before cs after, s.toList = before ++ cs ++ after ∧ (∀ c ∈ before, isBlank c = true) ∧
        (∀ c ∈ after, isBlank c = true) ∧ id.Spells cs) ∧
    ∀ a b : Identifier, a.compare b = .lt ↔ Text.bytes a.text < Text.bytes b.text := by
  refine ⟨toMixed_ofMixed, fun id => ?_, fun s id => parse_eq_ok_iff, fun a b => compare_eq_lt_iff⟩
  rw [parse_eq_ok_iff]
  exact ⟨[], id.text.toList, [], by simp, by simp, by simp, spells_text id⟩

end SolutionTree.Identifier
