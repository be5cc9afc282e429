/-!
Patterns for directory texts.

`?` stands for one character, `*` for any text, `[...]` for one character of a set
and `[!...]` for one outside it; `**` stands as a whole component, with the slash
after it, for any number of components, and at the end of a pattern for any text.
The wildcards match slashes and leading dots like other characters. `parse` reads a
pattern or says where it goes wrong.
-/

namespace SolutionTree

namespace Pattern

/-- A member of a character set. -/
inductive Member where
  | one (c : Char)
  | range (first last : Char)
  deriving DecidableEq, Repr

/-- One part of a pattern. -/
inductive Token where
  | char (c : Char)
  | anyChar
  | anyText
  | anyDirs
  | oneOf (members : List Member)
  | noneOf (members : List Member)
  deriving DecidableEq, Repr

inductive Flaw where
  | wildcards
  | recursive
  | range
  deriving DecidableEq, Repr

/-- A flaw and the character that it was found at. -/
structure ParseError where
  position : Nat
  flaw : Flaw
  deriving DecidableEq, Repr

def Flaw.message : Flaw → String
  | .wildcards => "wildcards are either regular `*` or recursive `**`"
  | .recursive => "recursive wildcards must form a single path component"
  | .range => "invalid range pattern"

def ParseError.message (e : ParseError) : String :=
  "Pattern syntax error near position " ++ toString e.position ++ ": " ++ e.flaw.message

/-! ### Reading -/

def members : List Char → List Member
  | first :: '-' :: last :: rest => .range first last :: members rest
  | c :: rest => .one c :: members rest
  | [] => []

/-- What stands before the first closing bracket, and what after it. -/
def closing? : List Char → Option (List Char × List Char)
  | [] => none
  | c :: cs => if c = ']' then some ([], cs) else (closing? cs).map fun x => (c :: x.1, x.2)

theorem closing?_length {cs : List Char} {x : List Char × List Char} (h : closing? cs = some x) :
    cs.length = x.1.length + 1 + x.2.length := by
  induction cs generalizing x with
  | nil => simp [closing?] at h
  | cons c cs ih =>
    by_cases hc : c = ']'
    · simp only [closing?, hc, ↓reduceIte, Option.some.injEq] at h
      subst h
      simp [Nat.add_comm]
    · simp only [closing?, hc, ↓reduceIte, Option.map_eq_some_iff] at h
      obtain ⟨y, hy, rfl⟩ := h
      have := ih hy
      simp only [List.length_cons]
      omega

/-- The members of a set and what follows it, read from its first member; that one
may be a closing bracket. -/
def setFrom? : List Char → Option (List Member × List Char)
  | [] => none
  | first :: more => (closing? more).map fun x => (members (first :: x.1), x.2)

/-- A set, read after its opening bracket: its token, and what follows it. -/
def set? : List Char → Option (Token × List Char)
  | '!' :: rest => (setFrom? rest).map fun x => (.noneOf x.1, x.2)
  | rest => (setFrom? rest).map fun x => (.oneOf x.1, x.2)

/-- A set takes something of the pattern, which is why reading goes on with less. -/
theorem setFrom?_length {cs : List Char} {x : List Member × List Char}
    (h : setFrom? cs = some x) : x.2.length < cs.length := by
  cases cs with
  | nil => simp [setFrom?] at h
  | cons first more =>
    simp only [setFrom?, Option.map_eq_some_iff] at h
    obtain ⟨y, hy, rfl⟩ := h
    have := closing?_length hy
    simp only [List.length_cons]
    omega

theorem set?_length {cs rest : List Char} {token : Token} (h : set? cs = some (token, rest)) :
    rest.length < cs.length := by
  unfold set? at h
  split at h
  · simp only [Option.map_eq_some_iff, Prod.mk.injEq] at h
    obtain ⟨y, hy, -, rfl⟩ := h
    have := setFrom?_length hy
    simp only [List.length_cons]
    omega
  · simp only [Option.map_eq_some_iff, Prod.mk.injEq] at h
    obtain ⟨y, hy, -, rfl⟩ := h
    exact setFrom?_length hy

/-- Reads a pattern from a position; `fresh` says that a component begins there. -/
def parseFrom (position : Nat) (fresh : Bool) (cs : List Char) : Except ParseError (List Token) :=
  match cs with
  | [] => .ok []
  | '?' :: rest => (parseFrom (position + 1) false rest).map (.anyChar :: ·)
  | '*' :: '*' :: '*' :: _ => .error ⟨position + 2, .wildcards⟩
  | '*' :: '*' :: rest =>
    if !fresh then .error ⟨position - 1, .recursive⟩
    else
      match rest with
      | [] => .ok [.anyDirs]
      | '/' :: rest => (parseFrom (position + 3) true rest).map (.anyDirs :: ·)
      | _ => .error ⟨position + 2, .recursive⟩
  | '*' :: rest => (parseFrom (position + 1) false rest).map (.anyText :: ·)
  | '[' :: rest =>
    match _h : set? rest with
    | none => .error ⟨position, .range⟩
    | some (token, after) =>
      (parseFrom (position + 1 + (rest.length - after.length)) false after).map (token :: ·)
  | c :: rest => (parseFrom (position + 1) (c == '/') rest).map (.char c :: ·)
termination_by cs.length
decreasing_by
  all_goals simp_all only [List.length_cons]
  all_goals first
    | omega
    | exact Nat.lt_succ_of_lt (set?_length _h)

end Pattern

structure Pattern where
  tokens : List Pattern.Token
  deriving DecidableEq, Repr

namespace Pattern

def parse (s : String) : Except ParseError Pattern :=
  (parseFrom 0 true s.toList).map Pattern.mk

end Pattern

end SolutionTree
