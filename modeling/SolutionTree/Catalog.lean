import SolutionTree.Dictionary
import SolutionTree.Target

/-!
Catalogs: targets in the order in which they were added, no two of one name.

The targets stand in a list, and two dictionaries say at which positions names and
directories are found in it. `Raw.insert` refuses a name that is taken and otherwise
writes all three; of several targets in one directory, the last one is found. The
list and the dictionaries stay in step (`Raw.InStep`, `Raw.InStep.insert`), and a
`Catalog` is a list with dictionaries that are.
-/

namespace SolutionTree

/-- Targets in the order in which they were added, and the positions that names and
directories stand for. -/
structure Catalog.Raw where
  targets : List Target := []
  byName : Dictionary Nat := {}
  byDirectory : Dictionary Nat := {}

namespace Catalog.Raw

def size (r : Raw) : Nat :=
  r.targets.length

def find? (r : Raw) (name : String) : Option Target :=
  (r.byName.get? name).bind fun i => r.targets[i]?

/-- Whether a name is taken: the dictionary of names has it. -/
def contains (r : Raw) (name : String) : Bool :=
  r.byName.contains name

def findDir? (r : Raw) (relativeDir : String) : Option Target :=
  (r.byDirectory.get? relativeDir).bind fun i => r.targets[i]?

/-- Puts a target behind the others, and its position into both dictionaries. -/
def push (r : Raw) (t : Target) : Raw where
  targets := r.targets ++ [t]
  byName := r.byName.insert t.name r.targets.length
  byDirectory := r.byDirectory.insert t.relativeDir r.targets.length

/-- Adds a target, unless its name is taken. What comes of the call stands beside
what it leaves. -/
def insert (r : Raw) (t : Target) : Except Fault Unit × Raw :=
  match r.byName.get? t.name with
  | some i => (.error (.duplicateTarget t.name (r.targets[i]!).dir t.dir), r)
  | none => (.ok (), r.push t)

/-- The dictionaries are in step with the list: a name has the position of the one
target that is called so, and a directory that of the last target in it. No position
lies behind the list. -/
structure InStep (r : Raw) : Prop where
  byName_iff : ∀ name i, r.byName.get? name = some i ↔ ∃ t, r.targets[i]? = some t ∧ t.name = name
  byDirectory_iff : ∀ relativeDir i, r.byDirectory.get? relativeDir = some i ↔
    (∃ t, r.targets[i]? = some t ∧ t.relativeDir = relativeDir) ∧
      ∀ j t, i < j → r.targets[j]? = some t → t.relativeDir ≠ relativeDir

/-- Without targets there is nothing to be out of step with. -/
theorem inStep_empty : InStep {} where
  byName_iff := by simp
  byDirectory_iff := by simp

/-- A position behind one more target is that target's, or one that was there
before. -/
theorem getElem?_concat_eq_some_iff {targets : List Target} {t u : Target} {i : Nat} :
    (targets ++ [t])[i]? = some u ↔ targets[i]? = some u ∨ i = targets.length ∧ u = t := by
  by_cases hlt : i < targets.length
  · rw [List.getElem?_append_left hlt]
    simp [Nat.ne_of_lt hlt]
  · have hnone : targets[i]? = none := List.getElem?_eq_none (Nat.le_of_not_lt hlt)
    rw [List.getElem?_append_right (Nat.le_of_not_lt hlt), hnone]
    by_cases heq : i = targets.length
    · simp [heq, eq_comm]
    · have hpos : i - targets.length ≠ 0 := by omega
      simp [heq, hpos]

theorem lt_of_getElem?_eq_some {targets : List Target} {t : Target} {i : Nat}
    (h : targets[i]? = some t) : i < targets.length :=
  (List.getElem?_eq_some_iff.mp h).1

/-- **A target of a free name** is written to the list and to both dictionaries so
that they stay in step. In its directory it hides the targets that were there
before. -/
theorem InStep.push {r : Raw} {t : Target} (h : r.InStep) (hfree : r.byName.get? t.name = none) :
    (r.push t).InStep where
  byName_iff := by
    intro name i
    simp only [Raw.push, Dictionary.get?_insert, getElem?_concat_eq_some_iff]
    by_cases hname : name = t.name
    · subst hname
      have hnone : ∀ (j : Nat) (u : Target), r.targets[j]? = some u → u.name ≠ t.name := by
        intro j u hu heq
        have htaken := (h.byName_iff t.name j).mpr ⟨u, hu, heq⟩
        simp [hfree] at htaken
      constructor
      · intro hi
        exact ⟨t, .inr ⟨by simpa using hi.symm, rfl⟩, rfl⟩
      · rintro ⟨u, hu | ⟨rfl, rfl⟩, heq⟩
        · exact absurd heq (hnone i u hu)
        · simp
    · rw [if_neg hname, h.byName_iff]
      constructor
      · rintro ⟨u, hu, heq⟩
        exact ⟨u, .inl hu, heq⟩
      · rintro ⟨u, hu | ⟨-, rfl⟩, heq⟩
        · exact ⟨u, hu, heq⟩
        · exact absurd heq.symm hname
  byDirectory_iff := by
    intro relativeDir i
    simp only [Raw.push, Dictionary.get?_insert, getElem?_concat_eq_some_iff]
    by_cases hdir : relativeDir = t.relativeDir
    · subst hdir
      rw [if_pos rfl]
      constructor
      · intro hi
        obtain rfl := Option.some.inj hi
        refine ⟨⟨t, .inr ⟨rfl, rfl⟩, rfl⟩, ?_⟩
        rintro j u hj (hu | ⟨rfl, -⟩)
        · exact absurd (lt_of_getElem?_eq_some hu) (Nat.lt_asymm hj)
        · exact absurd hj (Nat.lt_irrefl _)
      · rintro ⟨⟨u, hu | ⟨rfl, -⟩, heq⟩, hlast⟩
        · exact absurd rfl (hlast _ t (lt_of_getElem?_eq_some hu) (.inr ⟨rfl, rfl⟩))
        · rfl
    · rw [if_neg hdir, h.byDirectory_iff]
      constructor
      · rintro ⟨⟨u, hu, heq⟩, hlast⟩
        refine ⟨⟨u, .inl hu, heq⟩, ?_⟩
        rintro j v hj (hv | ⟨-, rfl⟩)
        · exact hlast j v hj hv
        · exact Ne.symm hdir
      · rintro ⟨⟨u, hu | ⟨-, rfl⟩, heq⟩, hlast⟩
        · exact ⟨⟨u, hu, heq⟩, fun j v hj hv => hlast j v hj (.inl hv)⟩
        · exact absurd heq.symm hdir

/-- **Every call keeps the dictionaries in step**, also one that is refused, which
writes nothing. -/
theorem InStep.insert {r : Raw} (h : r.InStep) (t : Target) : (r.insert t).2.InStep := by
  unfold Raw.insert
  split
  next => exact h
  next hfree => exact h.push hfree

end Catalog.Raw

/-- Targets with different names, in the order in which they were added, that are
found by name and by directory. -/
structure Catalog where
  raw : Catalog.Raw
  inStep : raw.InStep

namespace Catalog

def empty : Catalog := ⟨{}, Raw.inStep_empty⟩

instance : Inhabited Catalog := ⟨empty⟩

def targets (c : Catalog) : List Target :=
  c.raw.targets

def size (c : Catalog) : Nat :=
  c.raw.size

def names (c : Catalog) : List String :=
  c.targets.map Target.name

def find? (c : Catalog) (name : String) : Option Target :=
  c.raw.find? name

/-- Whether a name is taken. -/
def contains (c : Catalog) (name : String) : Bool :=
  c.raw.contains name

/-- The last target in a directory. -/
def findDir? (c : Catalog) (relativeDir : String) : Option Target :=
  c.raw.findDir? relativeDir

/-- Adds a target, unless its name is taken. -/
def insert (c : Catalog) (t : Target) : Except Fault Catalog :=
  let next := c.raw.insert t
  next.1.map fun _ => ⟨next.2, c.inStep.insert t⟩

/-- The only executable, if there is exactly one. -/
def onlyExecutable? (c : Catalog) : Option Target :=
  match c.targets.filter fun t => t.kind = .executable with
  | [t] => some t
  | _ => none

@[simp] theorem targets_empty : empty.targets = [] := rfl

theorem size_eq_length (c : Catalog) : c.size = c.targets.length := rfl

/-- What a call leaves when it goes well is in step again, and so it is a catalog.
-/
theorem insert_of_ok {c : Catalog} {t : Target} (h : (c.raw.insert t).1 = .ok ()) :
    ∃ next, c.insert t = .ok next ∧ next.raw = (c.raw.insert t).2 := by
  refine ⟨⟨(c.raw.insert t).2, c.inStep.insert t⟩, ?_, rfl⟩
  unfold insert
  dsimp only
  rw [h]
  rfl

/-- A refused call gives the fault alone: the catalog that it was made on is still
there. -/
theorem insert_of_error {c : Catalog} {t : Target} {fault : Fault}
    (h : (c.raw.insert t).1 = .error fault) : c.insert t = .error fault := by
  unfold insert
  dsimp only
  rw [h]
  rfl

end Catalog

end SolutionTree
