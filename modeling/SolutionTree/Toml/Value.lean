/-!
TOML values and the table that a document builds up.

`Value` is what a reader of settings sees. While a document is read, its tables are
`Item`s that remember how they came about, since that decides what may still be
added: a table with a header of its own is closed to dotted keys, one that only a
longer header implies may still get its header, and one that dotted keys made takes
further dotted keys. `insertKey`, `openTable` and `openElement` are the three ways
in which a document grows; each is none when TOML forbids it.
-/

namespace SolutionTree.Toml

/-- A value of a document. Floats and date-times keep their text. -/
inductive Value where
  | string (s : String)
  | integer (n : Int)
  | float (text : String)
  | boolean (b : Bool)
  | dateTime (text : String)
  | array (elements : List Value)
  | table (entries : List (String × Value))
  deriving Repr, Inhabited

/-- How a table came about. -/
inductive Origin where
  | header
  | implied
  | dotted
  deriving DecidableEq, Repr

/-- What a key stands for while a document is read. -/
inductive Item where
  | value (v : Value)
  | table (origin : Origin) (entries : List (String × Item))
  | tables (elements : List (List (String × Item)))
  deriving Inhabited

/-- The keys of a table and what they stand for. -/
abbrev Entries := List (String × Item)

/-- Puts an item under a key: in place of the old one, or last. -/
def Entries.put (entries : Entries) (key : String) (item : Item) : Entries :=
  if (entries.lookup key).isSome then
    entries.map fun entry => if entry.1 = key then (key, item) else entry
  else
    entries ++ [(key, item)]

/-- Puts a value under dotted keys, read from the table that they stand in. -/
def insertKey (entries : Entries) (keys : List String) (v : Value) : Option Entries :=
  match keys with
  | [] => none
  | [key] => if (entries.lookup key).isSome then none else some (entries.put key (.value v))
  | key :: next :: keys =>
    match entries.lookup key with
    | none => (insertKey [] (next :: keys) v).map fun t => entries.put key (.table .dotted t)
    | some (.table origin t) =>
      if origin = .header || (keys.isEmpty && origin != .dotted) then none
      else (insertKey t (next :: keys) v).map fun t => entries.put key (.table origin t)
    | some (.tables elements) =>
      match elements.getLast? with
      | none => none
      | some last =>
        if keys.isEmpty then none
        else (insertKey last (next :: keys) v).map fun t =>
          entries.put key (.tables (elements.dropLast ++ [t]))
    | some (.value _) => none

/-- Changes the table that header keys lead to, making the tables on the way; an
array of tables is entered at its last element. -/
def modifyTable (f : Entries → Option Entries) : List String → Entries → Option Entries
  | [], entries => f entries
  | key :: keys, entries =>
    match entries.lookup key with
    | none => (modifyTable f keys []).map fun t => entries.put key (.table .implied t)
    | some (.table origin t) =>
      (modifyTable f keys t).map fun t => entries.put key (.table origin t)
    | some (.tables elements) =>
      match elements.getLast? with
      | none => none
      | some last =>
        (modifyTable f keys last).map fun t =>
          entries.put key (.tables (elements.dropLast ++ [t]))
    | some (.value _) => none

/-- Gives a table its header. -/
def openTable (key : String) (entries : Entries) : Option Entries :=
  match entries.lookup key with
  | none => some (entries.put key (.table .header []))
  | some (.table .implied t) => some (entries.put key (.table .header t))
  | some _ => none

/-- Begins one more element of an array of tables. -/
def openElement (key : String) (entries : Entries) : Option Entries :=
  match entries.lookup key with
  | none => some (entries.put key (.tables [[]]))
  | some (.tables elements) => some (entries.put key (.tables (elements ++ [[]])))
  | some _ => none

mutual

/-- The value of an item that takes no more keys. -/
def Item.toValue : Item → Value
  | .value v => v
  | .table _ entries => .table (entriesToValues entries)
  | .tables elements => .array (elementsToValues elements)

def entriesToValues : List (String × Item) → List (String × Value)
  | [] => []
  | (key, item) :: rest => (key, item.toValue) :: entriesToValues rest

def elementsToValues : List (List (String × Item)) → List Value
  | [] => []
  | entries :: rest => .table (entriesToValues entries) :: elementsToValues rest

end

end SolutionTree.Toml
