import Mathlib.Data.String.Basic

/-!
The bytes of texts.

No character but NUL has a zero byte in its UTF-8 form (`zero_notMem_bytes`). Of two
characters the form of the lesser one differs from the other's at some byte and is
less there (`stepsBelow_utf8EncodeChar`), so that bytes put texts in the order in
which their characters do (`bytes_lt_bytes_iff`).
-/

namespace SolutionTree.Text

def bytes (s : String) : List UInt8 :=
  s.toUTF8.toList

/-- Reading a byte array from some position on, with what stands before it read
already. -/
theorem toList_loop_take (bs : ByteArray) (i : Nat) :
    ByteArray.toList.loop bs i (bs.data.toList.take i).reverse = bs.data.toList := by
  induction h : bs.size - i generalizing i with
  | zero =>
    have hi : ¬ i < bs.size := by omega
    have hall : bs.data.toList.length ≤ i := by
      rw [Array.length_toList]
      exact Nat.le_of_not_lt hi
    rw [ByteArray.toList.loop, if_neg hi, List.reverse_reverse, List.take_of_length_le hall]
  | succ n ih =>
    have hi : i < bs.size := by omega
    have hnext : bs.get! i :: (bs.data.toList.take i).reverse =
        (bs.data.toList.take (i + 1)).reverse := by
      rw [List.take_succ_eq_append_getElem (by rwa [Array.length_toList]), List.reverse_concat]
      simp [ByteArray.get!, hi]
    rw [ByteArray.toList.loop, if_pos hi, hnext]
    exact ih (i + 1) (by omega)

theorem bytes_eq_flatMap (s : String) : bytes s = s.toList.flatMap String.utf8EncodeChar := by
  have hbytes : s.toUTF8 = (s.toList.flatMap String.utf8EncodeChar).toByteArray := by
    rw [String.toUTF8_eq_toByteArray, ← String.utf8Encode_toList]
    rfl
  rw [bytes, hbytes]
  exact (toList_loop_take _ 0).trans List.toList_data_toByteArray

/-- Texts are told apart by their bytes. -/
theorem bytes_injective {s t : String} (h : bytes s = bytes t) : s = t := by
  rw [bytes_eq_flatMap, bytes_eq_flatMap] at h
  rw [← String.toByteArray_inj, ← String.utf8Encode_toList, ← String.utf8Encode_toList]
  exact congrArg List.toByteArray h

/-- A text has at least as many bytes as characters. -/
theorem length_le_utf8ByteSize (s : String) : s.length ≤ s.utf8ByteSize := by
  rw [← String.length_toList, ← String.ofList_toList (s := s), String.toList_ofList]
  induction s.toList with
  | nil => simp
  | cons c cs ih =>
    have hc := c.utf8Size_pos
    have hsize : (String.ofList (c :: cs)).utf8ByteSize =
        c.utf8Size + (String.ofList cs).utf8ByteSize := by
      rw [String.ofList_cons, String.utf8ByteSize_append, String.utf8ByteSize_singleton]
    rw [hsize, List.length_cons]
    omega

/-! ### Zero bytes -/

theorem zero_notMem_utf8EncodeChar {c : Char} (h : c ≠ '\x00') :
    0 ∉ String.utf8EncodeChar c := by
  have hc : c.val.toNat ≠ 0 := by
    intro e
    exact h (Char.toNat_inj.mp e)
  fun_cases String.utf8EncodeChar c <;>
    simp only [List.mem_cons, List.not_mem_nil, or_false, ← UInt8.toNat_inj, UInt8.toNat_ofNat',
      UInt8.toNat_zero] <;>
    omega

/-- A text without NUL has no zero byte. -/
theorem zero_notMem_bytes {s : String} (h : '\x00' ∉ s.toList) : 0 ∉ bytes s := by
  rw [bytes_eq_flatMap, List.mem_flatMap]
  rintro ⟨c, hc, hzero⟩
  exact zero_notMem_utf8EncodeChar (fun e => h (e ▸ hc)) hzero

/-! ### Order -/

/-- Bytes that differ from others at some position of both, and are less there. -/
def StepsBelow : List UInt8 → List UInt8 → Prop
  | x :: xs, y :: ys => x < y ∨ x = y ∧ StepsBelow xs ys
  | _, _ => False

theorem StepsBelow.append_lt {xs ys : List UInt8} (h : StepsBelow xs ys) (us vs : List UInt8) :
    xs ++ us < ys ++ vs := by
  induction xs generalizing ys with
  | nil => exact h.elim
  | cons x xs ih =>
    cases ys with
    | nil => exact h.elim
    | cons y ys =>
      obtain hlt | ⟨rfl, hrest⟩ := h
      · exact .rel hlt
      · exact .cons (ih hrest)

/-- Of two characters, the bytes of the lesser one are less at the first position at
which they differ, and neither is the start of the other. -/
theorem stepsBelow_utf8EncodeChar {c d : Char} (h : c < d) :
    StepsBelow (String.utf8EncodeChar c) (String.utf8EncodeChar d) := by
  have hcd : c.val.toNat < d.val.toNat := h
  have hd : d.val.toNat < 0x110000 := by
    rcases d.valid with h | h
    · exact Nat.lt_trans h (by decide)
    · exact h.2
  fun_cases String.utf8EncodeChar c <;> fun_cases String.utf8EncodeChar d <;>
    simp (disch := omega) only [StepsBelow, UInt8.lt_iff_toNat_lt, ← UInt8.toNat_inj,
      UInt8.toNat_ofNat', and_false, or_false, Nat.mod_eq_of_lt] <;>
    omega

/-- **Bytes are ordered like characters**: the order of texts is that of their UTF-8
bytes. -/
theorem flatMap_utf8EncodeChar_lt {cs ds : List Char} (h : cs < ds) :
    cs.flatMap String.utf8EncodeChar < ds.flatMap String.utf8EncodeChar := by
  induction h with
  | nil =>
    obtain ⟨b, bs, hbytes⟩ := List.exists_cons_of_ne_nil String.utf8EncodeChar_ne_nil
    rw [List.flatMap_nil, List.flatMap_cons, hbytes]
    exact List.nil_lt_cons _ _
  | rel hlt => exact (stepsBelow_utf8EncodeChar hlt).append_lt _ _
  | cons _ ih => exact List.append_left_lt ih

/-- **The order of texts is that of their bytes.** A lesser character has lesser
bytes, so that comparing by code points and by UTF-8 comes to the same. -/
theorem bytes_lt_bytes_iff {s t : String} : bytes s < bytes t ↔ s < t := by
  have hmono : ∀ {a b : String}, a < b → bytes a < bytes b := by
    intro a b hab
    rw [bytes_eq_flatMap, bytes_eq_flatMap]
    exact flatMap_utf8EncodeChar_lt hab
  refine ⟨fun h => ?_, hmono⟩
  by_contra hnot
  rcases lt_or_eq_of_le (not_lt.mp hnot) with hlt | rfl
  · exact List.lt_asymm h (hmono hlt)
  · exact List.lt_irrefl _ h

end SolutionTree.Text
