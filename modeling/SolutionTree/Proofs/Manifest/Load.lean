import SolutionTree.Manifest

/-!
What comes of the manifest of a directory.

A manifest is loaded if it is missing, or a text that can be read
(`load_eq_ok_iff`). Otherwise it is the fault, as unreadable or with the line that
is malformed (`load_eq_error_iff`).
-/

namespace SolutionTree

namespace FileSystem

variable {fs : FileSystem} {p : Path}

/-- A text is read from a file whose bytes are one. -/
theorem readText_eq_ok {text : String} (h : fs.readText p = .ok text) :
    ∃ content, fs.node? p = .ok (.file content) ∧ String.fromUTF8? content = some text := by
  unfold readText readBytes at h
  cases hnode : fs.node? p with
  | error e => simp [hnode] at h
  | ok node =>
    cases node with
    | dir entries => simp [hnode] at h
    | file content =>
      cases htext : String.fromUTF8? content with
      | none => simp [hnode, htext] at h
      | some decoded =>
        simp only [hnode, htext, Except.ok.injEq] at h
        exact ⟨content, rfl, h ▸ htext⟩

theorem readText_of_node? {content : ByteArray} {text : String}
    (hnode : fs.node? p = .ok (.file content)) (htext : String.fromUTF8? content = some text) :
    fs.readText p = .ok text := by
  simp only [readText, readBytes, hnode, htext]

end FileSystem

namespace Manifest

variable {fs : FileSystem} {dir : Path} {name : String} {base : IncludeBase}

/-- A manifest that is loaded is missing, or a text that is well-formed. -/
theorem load_eq_ok_iff {m : Manifest} :
    Manifest.load fs dir name base = .ok m ↔
      fs.readText (dir.child name) = .error .notFound ∧ m = {} ∨
        ∃ text, fs.readText (dir.child name) = .ok text ∧
          Manifest.parseAt base (dir.child name) text = .ok m := by
  unfold Manifest.load Manifest.read?
  cases hread : fs.readText (dir.child name) with
  | error e =>
    by_cases he : e = .notFound
    · subst he
      simp [Except.map, hread, eq_comm]
    · simp [Except.map, hread, he]
  | ok text =>
    cases hparse : Manifest.parseAt base (dir.child name) text with
    | error fault => simp [Except.map, hread, hparse]
    | ok manifest => simp [Except.map, hread, hparse]

/-- A manifest that is not loaded is there and cannot be read, or one of its lines
is malformed. -/
theorem load_eq_error_iff {fault : Fault} :
    Manifest.load fs dir name base = .error fault ↔
      (∃ cause, fs.readText (dir.child name) = .error cause ∧ cause ≠ .notFound ∧
        fault = .manifestUnreadable (dir.child name) cause) ∨
      ∃ text e, fs.readText (dir.child name) = .ok text ∧ parse base text = .error e ∧
        fault = e.fault (dir.child name) := by
  unfold load read?
  cases hread : fs.readText (dir.child name) with
  | error e =>
    by_cases he : e = .notFound
    · subst he
      simp [Except.map, hread]
    · simp [Except.map, hread, he, eq_comm]
  | ok text =>
    cases hparse : parse base text with
    | error e =>
      have hat : parseAt base (dir.child name) text = .error (e.fault (dir.child name)) := by
        rw [parseAt, hparse]
        rfl
      simp [Except.map, hread, hparse, hat, eq_comm]
    | ok manifest =>
      have hat : parseAt base (dir.child name) text = .ok manifest := by
        rw [parseAt, hparse]
        rfl
      simp [Except.map, hread, hparse, hat]

end Manifest

end SolutionTree
