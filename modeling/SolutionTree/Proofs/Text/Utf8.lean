import Mathlib.Data.Char
import Mathlib.Data.String.Basic
import SolutionTree.Text.Utf8

/-!
Texts are read back from their bytes.

The bytes of a character are read one by one (`readBytes_utf8EncodeChar`): each lies
within the bounds that the ones before it set, and adds its six bits to the value.
So a text is read back from its bytes (`lossy_utf8`), and nothing is lost between
texts and bytes (`utf8_injective`).
-/

namespace SolutionTree.Text

theorem toNat_lt_of_lt {n : Nat} (h : n < 256) : (UInt8.ofNat n).toNat = n := by
  rw [UInt8.toNat_ofNat', Nat.mod_eq_of_lt h]

theorem readBytes_first {n : Nat} {begun : Begun} (hn : 0x80 ≤ n) (hlt : n < 256)
    (h : begin? n = some begun) (rest : List UInt8) :
    readBytes none (UInt8.ofNat n :: rest) = readBytes (some begun) rest := by
  simp [readBytes, readFirst, toNat_lt_of_lt hlt, Nat.not_lt.mpr hn, h]

/-- A byte within its bounds goes into the character that is begun, and the next one
may be any that continues. -/
theorem readBytes_more {n lowest highest missing value : Nat} (hlowest : lowest ≤ n)
    (hhighest : n ≤ highest) (hlt : n < 256) (hmissing : missing ≠ 0) (rest : List UInt8) :
    readBytes (some ⟨missing + 1, lowest, highest, value⟩) (UInt8.ofNat n :: rest) =
      readBytes (some ⟨missing, 0x80, 0xBF, value * 64 + n % 64⟩) rest := by
  simp [readBytes, readNext, toNat_lt_of_lt hlt, hlowest, hhighest, hmissing]

/-- The last byte of a character gives the character. -/
theorem readBytes_last {n lowest highest value : Nat} (hlowest : lowest ≤ n)
    (hhighest : n ≤ highest) (hlt : n < 256) (rest : List UInt8) :
    readBytes (some ⟨1, lowest, highest, value⟩) (UInt8.ofNat n :: rest) =
      Char.ofNat (value * 64 + n % 64) :: readBytes none rest := by
  simp [readBytes, readNext, toNat_lt_of_lt hlt, hlowest, hhighest]

theorem begin?_two {n : Nat} (h : 0xC2 ≤ n) (h' : n ≤ 0xDF) :
    begin? n = some ⟨1, lowestAfter n, highestAfter n, n - 0xC0⟩ := by
  simp [begin?, h, h']

/-- The first byte of three bounds the second one more closely where shorter forms
or surrogates would be spelled. -/
theorem begin?_three {n : Nat} (h : 0xE0 ≤ n) (h' : n ≤ 0xEF) :
    begin? n = some ⟨2, lowestAfter n, highestAfter n, n - 0xE0⟩ := by
  have hnot : ¬ (0xC2 ≤ n ∧ n ≤ 0xDF) := by omega
  simp [begin?, hnot, h, h']

theorem begin?_four {n : Nat} (h : 0xF0 ≤ n) (h' : n ≤ 0xF4) :
    begin? n = some ⟨3, lowestAfter n, highestAfter n, n - 0xF0⟩ := by
  have hnot : ¬ (0xC2 ≤ n ∧ n ≤ 0xDF) := by omega
  have hnot' : ¬ (0xE0 ≤ n ∧ n ≤ 0xEF) := by omega
  simp [begin?, hnot, hnot', h, h']

/-- **The bytes of a character are read as that character.** The second byte lies
within its bounds because a character has its shortest form, is no surrogate and is
not behind the last one. -/
theorem readBytes_utf8EncodeChar (c : Char) (rest : List UInt8) :
    readBytes none (String.utf8EncodeChar c ++ rest) = c :: readBytes none rest := by
  have hc : Char.ofNat c.val.toNat = c := Char.ofNat_toNat c
  have hbounds : c.val.toNat < 0xD800 ∨ 0xDFFF < c.val.toNat ∧ c.val.toNat < 0x110000 := c.valid
  unfold String.utf8EncodeChar
  generalize c.val.toNat = v at hc hbounds
  dsimp only
  split
  next h1 =>
    have hfirst : readFirst v = ([c], none) := by
      rw [readFirst, if_pos (by omega), hc]
    simp [readBytes, toNat_lt_of_lt (n := v) (by omega), hfirst]
  split
  next h1 h2 =>
    have hbegin := begin?_two (n := v / 64 % 32 + 192) (by omega) (by omega)
    have hlowest : lowestAfter (v / 64 % 32 + 192) ≤ v % 64 + 128 := by
      unfold lowestAfter
      split_ifs <;> omega
    have hhighest : v % 64 + 128 ≤ highestAfter (v / 64 % 32 + 192) := by
      unfold highestAfter
      split_ifs <;> omega
    have hvalue : (v / 64 % 32 + 192 - 192) * 64 + (v % 64 + 128) % 64 = v := by omega
    rw [List.cons_append, readBytes_first (by omega) (by omega) hbegin, List.cons_append,
      readBytes_last hlowest hhighest (by omega), hvalue, hc, List.nil_append]
  split
  next h1 h2 h3 =>
    have hbegin := begin?_three (n := v / 4096 % 16 + 224) (by omega) (by omega)
    have hlowest : lowestAfter (v / 4096 % 16 + 224) ≤ v / 64 % 64 + 128 := by
      unfold lowestAfter
      split_ifs <;> omega
    have hhighest : v / 64 % 64 + 128 ≤ highestAfter (v / 4096 % 16 + 224) := by
      unfold highestAfter
      split_ifs <;> omega
    have hvalue : ((v / 4096 % 16 + 224 - 224) * 64 + (v / 64 % 64 + 128) % 64) * 64 +
        (v % 64 + 128) % 64 = v := by omega
    rw [List.cons_append, readBytes_first (by omega) (by omega) hbegin, List.cons_append,
      readBytes_more hlowest hhighest (by omega) (by omega), List.cons_append,
      readBytes_last (by omega) (by omega) (by omega), hvalue, hc, List.nil_append]
  next h1 h2 h3 =>
    have hbegin := begin?_four (n := v / 262144 % 8 + 240) (by omega) (by omega)
    have hlowest : lowestAfter (v / 262144 % 8 + 240) ≤ v / 4096 % 64 + 128 := by
      unfold lowestAfter
      split_ifs <;> omega
    have hhighest : v / 4096 % 64 + 128 ≤ highestAfter (v / 262144 % 8 + 240) := by
      unfold highestAfter
      split_ifs <;> omega
    have hvalue : (((v / 262144 % 8 + 240 - 240) * 64 + (v / 4096 % 64 + 128) % 64) * 64 +
        (v / 64 % 64 + 128) % 64) * 64 + (v % 64 + 128) % 64 = v := by omega
    rw [List.cons_append, readBytes_first (by omega) (by omega) hbegin, List.cons_append,
      readBytes_more hlowest hhighest (by omega) (by omega), List.cons_append,
      readBytes_more (by omega) (by omega) (by omega) (by omega), List.cons_append,
      readBytes_last (by omega) (by omega) (by omega), hvalue, hc, List.nil_append]

/-- **A text is read back from its bytes.** -/
theorem lossy_utf8 (s : String) : lossy (utf8 s) = s := by
  have hchars : ∀ cs : List Char, readBytes none (cs.flatMap String.utf8EncodeChar) = cs := by
    intro cs
    induction cs with
    | nil => rfl
    | cons c cs ih => rw [List.flatMap_cons, readBytes_utf8EncodeChar, ih]
  rw [lossy, utf8, hchars, String.ofList_toList]

/-- Different texts have different bytes, for they are read back from them. -/
theorem utf8_injective {s t : String} (h : utf8 s = utf8 t) : s = t := by
  rw [← lossy_utf8 s, h, lossy_utf8]

/-- The byte of the slash stands in the encoding of no other character, so that a
path of bytes is cut where its text is. -/
theorem slash_notMem_utf8EncodeChar {c : Char} (h : c ≠ '/') :
    0x2F ∉ String.utf8EncodeChar c := by
  have hc : c.val.toNat ≠ 0x2F := by
    intro e
    exact h (Char.toNat_inj.mp e)
  fun_cases String.utf8EncodeChar c <;>
    simp only [List.mem_cons, List.not_mem_nil, or_false, ← UInt8.toNat_inj, UInt8.toNat_ofNat',
      UInt8.reduceToNat] <;>
    omega

/-- The byte of a slash belongs to a slash. -/
theorem slash_mem_utf8_iff {s : String} : 0x2F ∈ utf8 s ↔ '/' ∈ s.toList := by
  rw [utf8, List.mem_flatMap]
  constructor
  · rintro ⟨c, hc, hslash⟩
    by_contra hnot
    exact slash_notMem_utf8EncodeChar (fun e => hnot (e ▸ hc)) hslash
  · intro h
    exact ⟨'/', h, by decide⟩

/-- A byte that begins no character, a character that breaks off before the next
one, and one that is cut off at the end. -/
example : lossy [0xFF, 0x61, 0xE2, 0x82, 0xC3, 0xA9, 0xF0, 0x9F, 0x92] = "\uFFFDa\uFFFDé\uFFFD" := by
  decide

end SolutionTree.Text
