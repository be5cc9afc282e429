/-!
Maps from texts to values.

`insert` gives a key a value, in place of any that it had, and `get?` finds the
value of a key. That is all that shows of a dictionary: the order in which its keys
came does not.
-/

namespace SolutionTree

/-- Keys and their values. Of several entries with one key the first one counts,
which is the one that came last. -/
structure Dictionary (α : Type) where
  entries : List (String × α) := []
  deriving Repr

namespace Dictionary

variable {α : Type}

def get? (d : Dictionary α) (key : String) : Option α :=
  d.entries.lookup key

def contains (d : Dictionary α) (key : String) : Bool :=
  (d.get? key).isSome

/-- Gives a key a value. -/
def insert (d : Dictionary α) (key : String) (value : α) : Dictionary α where
  entries := (key, value) :: d.entries

def ofList (entries : List (String × α)) : Dictionary α :=
  entries.foldl (fun d entry => d.insert entry.1 entry.2) {}

@[simp] theorem get?_empty (key : String) : ({} : Dictionary α).get? key = none := rfl

/-- The last entry of a key hides the ones before it, and every other key keeps its
value. -/
theorem get?_insert (d : Dictionary α) (key key' : String) (value : α) :
    (d.insert key value).get? key' = if key' = key then some value else d.get? key' := by
  by_cases h : key' = key
  · simp [get?, insert, h]
  · have hkey : (key' == key) = false := beq_eq_false_iff_ne.mpr h
    simp [get?, insert, List.lookup_cons, hkey, h]

/-- Entries that come one after another are looked up in their reverse order: the
last one of a key hides the others. -/
theorem get?_ofList (entries : List (String × α)) (key : String) :
    (ofList entries).get? key = entries.reverse.lookup key := by
  have hentries : ∀ (d : Dictionary α), (entries.foldl (fun d entry => d.insert entry.1 entry.2)
      d).entries = entries.reverse ++ d.entries := by
    induction entries with
    | nil =>
      intro d
      rfl
    | cons entry entries ih =>
      intro d
      rw [List.foldl_cons, ih, insert]
      simp
  rw [get?, ofList, hentries, List.append_nil]

end Dictionary

end SolutionTree
