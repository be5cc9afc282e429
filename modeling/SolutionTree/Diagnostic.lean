import SolutionTree.Path

/-!
Diagnostics: what a user is told about a fault or a warning.

A diagnostic has a message, and may have the path that it is about, lines of context
and suggestions. `render` lays it out for a terminal, with colors or without.
-/

namespace SolutionTree

/-- How grave a diagnostic is. -/
inductive Severity where
  | error
  | warning
  deriving DecidableEq, Repr

def Severity.word : Severity → String
  | .error => "error"
  | .warning => "warning"

def Severity.colorCode : Severity → String
  | .error => "31"
  | .warning => "33"

/-- A message for the user. -/
structure Diagnostic where
  severity : Severity
  message : String
  location : Option Path := none
  context : List String := []
  suggestions : List String := []
  deriving DecidableEq, Repr

namespace Diagnostic

/-- Writes a word in bold and in a color. -/
def colored (code word : String) : String :=
  "\x1b[1;" ++ code ++ "m" ++ word ++ "\x1b[0m"

def styled (color : Bool) (code word : String) : String :=
  if color then colored code word else word

/-- Suggestions as a numbered list. -/
def numbered : Nat → List String → String
  | _, [] => ""
  | n, s :: rest => "  " ++ toString n ++ ". " ++ s ++ "\n" ++ numbered (n + 1) rest

/-- The layout of a diagnostic: message, location, context and suggestions. -/
def render (d : Diagnostic) (color : Bool) : String :=
  let head := styled color d.severity.colorCode d.severity.word ++ ": " ++ d.message ++ "\n"
  let location :=
    match d.location with
    | none => ""
    | some path => "  --> " ++ path.text ++ "\n"
  let context := String.join (d.context.map fun line => "  = " ++ line ++ "\n")
  let help :=
    if d.suggestions.isEmpty then ""
    else "\n" ++ styled color "32" "help" ++ ": consider:\n" ++ numbered 1 d.suggestions
  head ++ location ++ context ++ help

end Diagnostic

end SolutionTree
