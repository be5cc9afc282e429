import SolutionTree.Fingerprint
import SolutionTree.Proofs.Text.Bytes

/-!
A stream says of which texts it is made.

Blocks that each end in a mark, and hold none before, come back when the list is cut
at the marks (`flatMap_concat_inj`). With the zero byte as the mark this is said of
texts without NUL (`ofTexts_inj`), an optional text among them, which is written
like a text (`ofOption_eq_ofText`). The digest may still be that of another stream
(`digest_eq_of_finish_eq`).
-/

namespace SolutionTree.Fingerprint

open Text

section Marked

variable {α : Type} [DecidableEq α] {mark : α}

/-- Blocks that end in a mark which none of them holds can be cut at the marks
again. The piece behind the last mark is empty. -/
theorem splitOn_flatMap_concat {blocks : List (List α)} (h : ∀ block ∈ blocks, mark ∉ block) :
    (blocks.flatMap (· ++ [mark])).splitOn mark = blocks ++ [[]] := by
  induction blocks with
  | nil => rfl
  | cons block blocks ih =>
    obtain ⟨hblock, hblocks⟩ := List.forall_mem_cons.mp h
    rw [List.flatMap_cons, List.append_assoc, List.singleton_append,
      List.splitOn_append_cons_self, List.splitOn_eq_singleton hblock, ih hblocks,
      List.singleton_append, List.cons_append]

/-- Blocks without the mark can be told from what they are with a mark behind each.
-/
theorem flatMap_concat_inj {blocks blocks' : List (List α)}
    (h : ∀ block ∈ blocks, mark ∉ block) (h' : ∀ block ∈ blocks', mark ∉ block)
    (heq : blocks.flatMap (· ++ [mark]) = blocks'.flatMap (· ++ [mark])) : blocks = blocks' := by
  have hsplit := congrArg (List.splitOn mark) heq
  rw [splitOn_flatMap_concat h, splitOn_flatMap_concat h'] at hsplit
  exact List.append_cancel_right hsplit

end Marked

theorem ofTexts_append (ss ts : List String) : ofTexts (ss ++ ts) = ofTexts ss ++ ofTexts ts :=
  List.flatMap_append

theorem ofTexts_flatMap {α : Type} (f : α → List String) (l : List α) :
    ofTexts (l.flatMap f) = l.flatMap fun a => ofTexts (f a) :=
  List.flatMap_assoc

/-- **Texts without a NUL can be read back** from the bytes that go into a
fingerprint, because the zero byte ends each of them and stands nowhere else. -/
theorem ofTexts_inj {ss ts : List String} (hs : ∀ s ∈ ss, '\x00' ∉ s.toList)
    (ht : ∀ t ∈ ts, '\x00' ∉ t.toList) (h : ofTexts ss = ofTexts ts) : ss = ts := by
  have hblocks : ∀ texts : List String,
      ofTexts texts = (texts.map bytes).flatMap (· ++ [0]) := by
    intro texts
    rw [List.flatMap_map]
    rfl
  have hfree : ∀ {texts : List String}, (∀ s ∈ texts, '\x00' ∉ s.toList) →
      ∀ block ∈ texts.map bytes, 0 ∉ block := by
    intro texts htexts block hblock
    obtain ⟨s, hs, rfl⟩ := List.mem_map.mp hblock
    exact zero_notMem_bytes (htexts s hs)
  rw [hblocks, hblocks] at h
  exact List.map_injective_iff.mpr (fun _ _ => bytes_injective)
    (flatMap_concat_inj (hfree hs) (hfree ht) h)

/-- A text with a NUL in it is written like the two texts around the NUL. So reading
back needs texts without one. -/
theorem ofText_append_nul (s t : String) : ofText (s ++ "\x00" ++ t) = ofText s ++ ofText t := by
  have hnul : String.utf8EncodeChar '\x00' = [0] := by decide
  have hbytes : bytes (s ++ "\x00" ++ t) = bytes s ++ 0 :: bytes t := by
    simp [bytes_eq_flatMap, hnul]
  calc ofText (s ++ "\x00" ++ t) = bytes (s ++ "\x00" ++ t) ++ [0] := rfl
    _ = ofText s ++ ofText t := by
      rw [hbytes, List.append_assoc, List.cons_append]
      exact List.append_cons ..

def marked : Option String → String
  | none => ""
  | some s => "\x01" ++ s

theorem ofOption_eq_ofText (text : Option String) : ofOption text = ofText (marked text) := by
  cases text with
  | none =>
    have hbytes : bytes "" = [] := by
      simp [bytes_eq_flatMap]
    exact congrArg (· ++ [0]) hbytes.symm
  | some s =>
    have hsign : String.utf8EncodeChar '\x01' = [1] := by decide
    have hbytes : bytes ("\x01" ++ s) = 1 :: bytes s := by
      simp [bytes_eq_flatMap, hsign]
    exact congrArg (· ++ [0]) hbytes.symm

/-- A missing text and an empty one are told apart by the sign in front of the
latter. -/
theorem marked_injective : Function.Injective marked := by
  intro a b h
  cases a <;> cases b <;> simp_all [marked]

theorem digest_eq_of_finish_eq {bs bs' : List UInt8} (h : finish bs = finish bs') :
    Sha256.digest bs = Sha256.digest bs' := by
  have hdigits := congrArg String.toList h
  rw [finish, finish, Sha256.hexDigest, Sha256.hexDigest, Hex.ofBytes, Hex.ofBytes,
    String.toList_ofList, String.toList_ofList] at hdigits
  have hbytes := congrArg Hex.toBytes? hdigits
  rw [Hex.toBytes?_octets, Hex.toBytes?_octets] at hbytes
  exact Option.some.inj hbytes

end SolutionTree.Fingerprint
