import SolutionTree.Proofs.Fingerprint
import SolutionTree.Proofs.Identifier.Counting
import SolutionTree.Proofs.Solution.Members

/-!
What the fingerprint of a solution tells.

The stream of a solution is a list of texts: its name, its main target, and for each
member the texts of the member and an empty one (`stream_eq_ofTexts`). In a solution
that is assembled, no other text of a member is empty, so that the list can be cut
into its members; and a member has as many names of references as identifiers, so
that the names can be told from the identifiers (`texts_eq_iff`). Hence legible
solutions of one stream are the same as far as they are written out
(`stream_eq_iff_agrees`), while a name with NULs can look like a name and a member
(`stream_eq_of_name_with_nul`).
-/

namespace SolutionTree

/-! ### Members -/

namespace Member

/-- The texts of a member that go into a fingerprint, but for the empty one that
ends them. -/
def texts (m : Member) : List String :=
  m.fileName :: m.target.kind.word :: m.target.id.text ::
    (m.references.map Reference.name ++ m.references.map fun r => r.id.text)

theorem stream_eq_ofTexts (m : Member) : m.stream = Fingerprint.ofTexts (m.texts ++ [""]) := by
  simp [stream, texts, Fingerprint.ofTexts_append]

/-- Members of which the same is written out. -/
structure Agrees (m n : Member) : Prop where
  fileName : m.fileName = n.fileName
  kind : m.target.kind = n.target.kind
  id : m.target.id = n.target.id
  references : m.references = n.references

theorem references_eq_of_map_eq {rs ss : List Reference}
    (hnames : rs.map Reference.name = ss.map Reference.name)
    (hids : (rs.map fun r => r.id.text) = ss.map fun r => r.id.text) : rs = ss := by
  induction rs generalizing ss with
  | nil => exact (List.map_eq_nil_iff.mp hnames.symm).symm
  | cons r rs ih =>
    cases ss with
    | nil => contradiction
    | cons s ss =>
      obtain ⟨hname, hnames⟩ := List.cons.inj hnames
      obtain ⟨hid, hids⟩ := List.cons.inj hids
      have hr : r = s := by
        obtain ⟨name, id⟩ := r
        obtain ⟨name', id'⟩ := s
        exact congrArg₂ Reference.mk hname (Identifier.text_injective hid)
      rw [hr, ih hnames hids]

/-- The texts of a member tell all that is written out of it. The first three are
single fields; of the others the first half is names and the second half
identifiers, so that no mark between them is needed. -/
theorem texts_eq_iff {m n : Member} : m.texts = n.texts ↔ m.Agrees n := by
  constructor
  · intro h
    simp only [texts, List.cons.injEq] at h
    obtain ⟨hfile, hkind, hid, hrefs⟩ := h
    -- Names and identifiers are as many, so that the middle is at the same place.
    have hlength : m.references.length = n.references.length := by
      have := congrArg List.length hrefs
      simp only [List.length_append, List.length_map] at this
      omega
    obtain ⟨hnames, hids⟩ := List.append_inj hrefs (by simpa using hlength)
    have hword := congrArg Target.Kind.ofWord? hkind
    rw [Target.Kind.ofWord?_word, Target.Kind.ofWord?_word] at hword
    exact ⟨hfile, Option.some.inj hword, Identifier.text_injective hid,
      references_eq_of_map_eq hnames hids⟩
  · rintro ⟨hfile, hkind, hid, hrefs⟩
    rw [texts, texts, hfile, hkind, hid, hrefs]

end Member

/-! ### Solutions -/

namespace Solution

/-- The texts of a solution that go into a fingerprint. -/
def texts (s : Solution) : List String :=
  s.name :: Fingerprint.marked s.main :: (s.members.map Member.texts).flatMap (· ++ [""])

theorem stream_eq_ofTexts (s : Solution) : s.stream = Fingerprint.ofTexts s.texts := by
  have hmembers : s.members.flatMap Member.stream =
      Fingerprint.ofTexts ((s.members.map Member.texts).flatMap (· ++ [""])) := by
    rw [Fingerprint.ofTexts_flatMap, List.flatMap_map]
    exact List.flatMap_congr fun m _ => m.stream_eq_ofTexts
  rw [stream, hmembers, Fingerprint.ofOption_eq_ofText, List.append_assoc, texts,
    Fingerprint.ofTexts_cons, Fingerprint.ofTexts_cons]

/-- Solutions of which the same is written out. -/
structure Agrees (s t : Solution) : Prop where
  name : s.name = t.name
  main : s.main = t.main
  members : List.Forall₂ Member.Agrees s.members t.members

/-- A solution whose texts have no NUL, and whose targets have names. What else is
written out of it are names of its targets, kinds and identifiers, which then have
no NUL either (`nul_notMem_of_mem_texts`). -/
structure Legible (s : Solution) : Prop where
  name : '\x00' ∉ s.name.toList
  fileName : ∀ m ∈ s.members, '\x00' ∉ m.fileName.toList
  target_name : ∀ m ∈ s.members, m.target.name ≠ ""

/-- Lists of members have the same texts exactly when they agree one by one. -/
theorem map_texts_eq_iff {ms ns : List Member} :
    ms.map Member.texts = ns.map Member.texts ↔ List.Forall₂ Member.Agrees ms ns := by
  rw [← List.forall₂_eq_eq_eq, List.forall₂_map_left_iff, List.forall₂_map_right_iff]
  simp only [Member.texts_eq_iff]

section Assembled

variable {c : Catalog} {d : Dependencies} {options : SolutionOptions} {s : Solution}
variable (h : assemble c d options = .ok s)

include h in
/-- Whether a solution is legible can be seen from what it is assembled of. -/
theorem legible_of_assemble (hname : '\x00' ∉ options.name.toList)
    (htargets : ∀ t ∈ c.targets,
      '\x00' ∉ (t.fileName options.extension).toList ∧ t.name ≠ "") : s.Legible where
  name := by
    obtain ⟨main, -, rfl⟩ := assemble_eq_ok_iff.mp h
    exact hname
  fileName m hm := by
    obtain ⟨t, ht, rfl⟩ := (mem_members_iff h).mp hm
    exact (htargets t ht).1
  target_name m hm := by
    obtain ⟨t, ht, rfl⟩ := (mem_members_iff h).mp hm
    exact (htargets t ht).2

variable (hs : s.Legible)
include h hs

theorem nul_notMem_target_name {m : Member} (hm : m ∈ s.members) :
    '\x00' ∉ m.target.name.toList := by
  have hfile := hs.fileName m hm
  rw [fileName_eq h hm, String.toList_append, String.toList_append] at hfile
  exact fun hname => hfile (List.mem_append_left _ (List.mem_append_left _ hname))

/-- The texts of a member are not empty and have no NUL. -/
theorem legible_of_mem_texts {m : Member} (hm : m ∈ s.members) {text : String}
    (htext : text ∈ m.texts) : text ≠ "" ∧ '\x00' ∉ text.toList := by
  simp only [Member.texts, List.mem_cons, List.mem_append, List.mem_map] at htext
  rcases htext with rfl | rfl | rfl | ⟨r, hr, rfl⟩ | ⟨r, -, rfl⟩
  · refine ⟨?_, hs.fileName m hm⟩
    rw [fileName_eq h hm]
    simp
  · cases m.target.kind <;> decide
  · exact ⟨Identifier.text_ne_empty _, Identifier.nul_notMem_text _⟩
  · obtain ⟨n, hn, rfl⟩ := exists_member_of_reference h hm hr
    exact ⟨hs.target_name n hn, nul_notMem_target_name h hs hn⟩
  · exact ⟨Identifier.text_ne_empty _, Identifier.nul_notMem_text _⟩

/-- No text of a legible solution has a NUL: what is not required of it is a name of
its targets, a kind or an identifier. -/
theorem nul_notMem_of_mem_texts {text : String} (htext : text ∈ s.texts) :
    '\x00' ∉ text.toList := by
  simp only [texts, List.mem_cons, List.mem_flatMap, List.mem_map, List.mem_append] at htext
  rcases htext with rfl | rfl | ⟨-, ⟨m, hm, rfl⟩, htext | rfl | htext⟩
  · exact hs.name
  · cases hmain : s.main with
    | none => decide
    | some name =>
      obtain ⟨m, hm, rfl, -⟩ := exists_member_of_main h hmain
      simpa [Fingerprint.marked] using nul_notMem_target_name h hs hm
  · exact (legible_of_mem_texts h hs hm htext).2
  · decide
  · contradiction

end Assembled

/-- **The stream of a solution tells the solution**: of two that are legible, the
streams are equal just if the same is written out of both. If only the fingerprints
are equal, then the streams are, or they are two messages of one digest. -/
theorem stream_eq_iff_agrees {c c' : Catalog} {d d' : Dependencies}
    {options options' : SolutionOptions} {s s' : Solution}
    (h : assemble c d options = .ok s) (h' : assemble c' d' options' = .ok s')
    (hs : s.Legible) (hs' : s'.Legible) :
    (s.stream = s'.stream ↔ s.Agrees s') ∧
      (s.fingerprint = s'.fingerprint → s.Agrees s' ∨
        s.stream ≠ s'.stream ∧ Sha256.digest s.stream = Sha256.digest s'.stream) := by
  have hiff : s.stream = s'.stream ↔ s.Agrees s' := by
    rw [stream_eq_ofTexts, stream_eq_ofTexts]
    constructor
    · intro hstream
      have htexts := Fingerprint.ofTexts_inj (fun _ => nul_notMem_of_mem_texts h hs)
        (fun _ => nul_notMem_of_mem_texts h' hs') hstream
      obtain ⟨hname, hrest⟩ := List.cons.inj htexts
      obtain ⟨hmain, hmembers⟩ := List.cons.inj hrest
      refine ⟨hname, Fingerprint.marked_injective hmain, map_texts_eq_iff.mp ?_⟩
      refine Fingerprint.flatMap_concat_inj ?_ ?_ hmembers
      · intro texts htexts hempty
        obtain ⟨m, hm, rfl⟩ := List.mem_map.mp htexts
        exact (legible_of_mem_texts h hs hm hempty).1 rfl
      · intro texts htexts hempty
        obtain ⟨m, hm, rfl⟩ := List.mem_map.mp htexts
        exact (legible_of_mem_texts h' hs' hm hempty).1 rfl
    · rintro ⟨hname, hmain, hmembers⟩
      rw [texts, texts, hname, hmain, map_texts_eq_iff.mpr hmembers]
  refine ⟨hiff, fun hfingerprint => ?_⟩
  by_cases hstream : s.stream = s'.stream
  · exact .inl (hiff.mp hstream)
  · exact .inr ⟨hstream, Fingerprint.digest_eq_of_finish_eq hfingerprint⟩

/-- A name with NULs may hide a member, so that legibility cannot be left out: a
solution with a member and one without any have the same stream. -/
theorem stream_eq_of_name_with_nul (name : String) {m : Member} (h : m.references = []) :
    (Solution.mk name none [m]).stream =
      (Solution.mk (name ++ "\x00" ++ ("" ++ "\x00" ++ (m.fileName ++ "\x00" ++
        (m.target.kind.word ++ "\x00" ++ m.target.id.text)))) none []).stream := by
  simp only [stream_eq_ofTexts, texts, Fingerprint.ofTexts_cons, Fingerprint.ofText_append_nul]
  simp [Fingerprint.marked, Member.texts, h]

/-- An executable and a library. -/
def pair : Catalog :=
  Catalog.empty.offers [.bare .executable "app" "app" [] none, .bare .library "util" "util" [] none]

/-- What they make when the executable depends on some targets. -/
def pairWith (dependencies : List String) : Solution where
  name := "solution"
  main := some "app"
  members := pair.targets.map (.ofTarget pair.identifiers ⟨[("app", dependencies)]⟩ "vcxproj")

theorem assemble_pair (dependencies : List String) :
    assemble pair ⟨[("app", dependencies)]⟩ {} = .ok (pairWith dependencies) := by
  have hmain : pair.selectMain none = .ok (some "app") := by decide +kernel
  have hsorted : (pairWith dependencies).members.Pairwise
      fun a b => Member.inOrder (some "app") a b = true :=
    List.pairwise_pair.mpr rfl
  refine assemble_eq_ok_iff.mpr ⟨_, hmain, ?_⟩
  exact congrArg (Solution.mk _ _) (List.mergeSort_of_pairwise hsorted).symm

theorem legible_pairWith (dependencies : List String) : (pairWith dependencies).Legible :=
  legible_of_assemble (assemble_pair dependencies) (by decide) (by decide +kernel)

theorem stream_eq_iff_agrees_pair :
    assemble pair ⟨[("app", ["util"])]⟩ {} = .ok (pairWith ["util"]) ∧
      assemble pair ⟨[("app", [])]⟩ {} = .ok (pairWith []) ∧
      (pairWith ["util"]).Legible ∧ (pairWith []).Legible ∧
      (pairWith ["util"]).stream ≠ (pairWith []).stream ∧
      ((pairWith ["util"]).fingerprint = (pairWith []).fingerprint →
        Sha256.digest (pairWith ["util"]).stream = Sha256.digest (pairWith []).stream) := by
  have h := assemble_pair ["util"]
  have h' := assemble_pair []
  have hs := legible_pairWith ["util"]
  have hs' := legible_pairWith []
  obtain ⟨hstream, hfingerprint⟩ := stream_eq_iff_agrees h h' hs hs'
  have hnot : ¬ (pairWith ["util"]).Agrees (pairWith []) := by
    intro hagrees
    have hreferences := (List.forall₂_cons.mp hagrees.members).1.references
    revert hreferences
    decide +kernel
  refine ⟨h, h', hs, hs', fun heq => hnot (hstream.mp heq), fun heq => ?_⟩
  exact (hfingerprint heq).elim (fun hagrees => absurd hagrees hnot) And.right

end Solution

end SolutionTree
