import SolutionTree.Path
import SolutionTree.Text.Pieces

/-!
The arguments of the command line.

Options stand before or after the name of a command. At each of the two places an
option may stand once, and the later place counts. An option takes its value from
after an equals sign, or from the next argument unless that looks like an option;
short options may be written together. After `--` every argument is an operand.
-/

namespace SolutionTree.Command

/-! ### What may be asked for -/

/-- What a run is to do. -/
inductive Request where
  | scan (json : Bool)
  | graph (target : Option String) (order : Bool)
  | generate (output : Option Path) (compact : Bool)
  deriving DecidableEq, Repr

/-- A request and the options that every request has. -/
structure Invocation where
  request : Request
  verbose : Bool := false
  noColor : Bool := false
  root : Option Path := none
  settingsFile : Option Path := none
  deriving DecidableEq, Repr

/-- Why arguments ask for no run. -/
inductive Stop where
  | usage
  | help
  | version
  deriving DecidableEq, Repr

/-! ### Options and places -/

inductive Switch where
  | verbose
  | noColor
  | root
  | config
  | json
  | order
  | output
  | compact
  | help
  | version
  deriving DecidableEq, Repr

namespace Switch

def long : Switch → String
  | .verbose => "verbose"
  | .noColor => "no-color"
  | .root => "root"
  | .config => "config"
  | .json => "json"
  | .order => "order"
  | .output => "output"
  | .compact => "compact"
  | .help => "help"
  | .version => "version"

/-- The short name of an option, if it has one. -/
def short? : Switch → Option Char
  | .verbose => some 'v'
  | .output => some 'o'
  | .help => some 'h'
  | .version => some 'V'
  | _ => none

/-- Whether an option has a value. -/
def takesValue : Switch → Bool
  | .root => true
  | .config => true
  | .output => true
  | _ => false

end Switch

inductive Name where
  | scan
  | graph
  | generate
  | help
  deriving DecidableEq, Repr

namespace Name

def all : List Name := [.scan, .graph, .generate, .help]

def word : Name → String
  | .scan => "scan"
  | .graph => "graph"
  | .generate => "generate"
  | .help => "help"

def ofWord? (word : String) : Option Name :=
  all.find? fun name => name.word == word

end Name

/-- What may stand at a place: options, at most some operands, and perhaps a
command. -/
structure Place where
  switches : List Switch
  operands : Nat := 0
  commands : Bool := false
  deriving DecidableEq, Repr

namespace Place

/-- The options that may stand anywhere. -/
def anywhere : List Switch := [.verbose, .noColor, .root, .config, .help]

/-- What may stand before the command. -/
def first : Place where
  switches := anywhere ++ [.version]
  commands := true

def after : Name → Place
  | .scan => { switches := anywhere ++ [.json] }
  | .graph => { switches := anywhere ++ [.order], operands := 1 }
  | .generate => { switches := anywhere ++ [.output, .compact] }
  | .help => { switches := [] }

end Place

/-! ### Reading arguments -/

/-- What has been read at one place. -/
structure Taken where
  options : List (Switch × String) := []
  /-- An option that waits for its value. -/
  pending : Option Switch := none
  operandsOnly : Bool := false
  operands : List String := []
  deriving DecidableEq, Repr

namespace Taken

def has (t : Taken) (s : Switch) : Bool :=
  (t.options.lookup s).isSome

/-- The value of an option that was given. -/
def path? (t : Taken) (s : Switch) : Option Path :=
  (t.options.lookup s).map Path.mk

/-- Records an option with its value: one that is new, and a value that is not
empty. -/
def record (t : Taken) (s : Switch) (value : String) : Except Stop Taken :=
  if t.pending.isSome then .error .usage
  else if s = .help then .error .help
  else if s = .version then .error .version
  else if t.has s || (s.takesValue && value == "") then .error .usage
  else .ok { t with options := (s, value) :: t.options }

/-- Lets an option wait for its value. -/
def await (t : Taken) (s : Switch) : Except Stop Taken :=
  if t.pending.isSome then .error .usage else .ok { t with pending := some s }

/-- Reads an option by its long name, and its value if there is an equals sign. -/
def takeLong (place : Place) (t : Taken) (cs : List Char) : Except Stop Taken :=
  let name := String.ofList (cs.takeWhile (· != '='))
  match place.switches.find? fun s => s.long == name, cs.dropWhile (· != '=') with
  | none, _ => .error .usage
  | some s, [] => if s.takesValue then t.await s else t.record s ""
  | some s, _ :: value =>
    if s.takesValue then t.record s (String.ofList value) else .error .usage

/-- Reads short options that are written together; what follows one with a value is
the value, without an equals sign in front. -/
def takeShort (place : Place) (t : Taken) : List Char → Except Stop Taken
  | [] => .ok t
  | c :: rest =>
    match place.switches.find? fun s => s.short? == some c with
    | none => .error .usage
    | some s =>
      if s.takesValue then
        match rest with
        | [] => t.await s
        | '=' :: value => t.record s (String.ofList value)
        | value => t.record s (String.ofList value)
      else
        match t.record s "" with
        | .error stop => .error stop
        | .ok t => t.takeShort place rest

def takeOperand (place : Place) (t : Taken) (arg : String) : Except Stop Taken :=
  if t.pending.isSome || place.operands ≤ t.operands.length then .error .usage
  else .ok { t with operands := t.operands ++ [arg] }

def take (place : Place) (t : Taken) (arg : String) : Except Stop Taken :=
  if t.operandsOnly then t.takeOperand place arg
  else
    match arg.toList with
    | ['-', '-'] => .ok { t with operandsOnly := true }
    | '-' :: '-' :: cs => t.takeLong place cs
    | '-' :: c :: cs => t.takeShort place (c :: cs)
    | _ =>
      match t.pending with
      | some s => { t with pending := none }.record s arg
      | none => t.takeOperand place arg

/-- Reads the arguments of a place, up to a command if one may stand there. -/
def takeAll (place : Place) :
    Taken → List String → Except Stop (Taken × Option (Name × List String))
  | t, [] => if t.pending.isSome then .error .usage else .ok (t, none)
  | t, arg :: args =>
    match if place.commands && !t.operandsOnly && t.pending.isNone then Name.ofWord? arg else none
    with
    | some name => .ok (t, some (name, args))
    | none =>
      match t.take place arg with
      | .error stop => .error stop
      | .ok t => takeAll place t args

end Taken

/-- What the help command answers: help on a command, if the arguments name one. -/
def helpStop : List String → Stop
  | [] => .help
  | [word] => if (Name.ofWord? word).isSome then .help else .usage
  | _ => .usage

/-- The request that a command and what stands after it make. -/
def requestOf (name : Name) (t : Taken) : Except Stop Request :=
  match name with
  | .scan => .ok (.scan (t.has .json))
  | .graph => .ok (.graph t.operands.head? (t.has .order))
  | .generate => .ok (.generate (t.path? .output) (t.has .compact))
  | .help => .error .help

/-- Reads the arguments. At each of the two places where no root is given it may
come from the environment, which may not have an empty one then either. -/
def parse (args : List String) (envRoot : Option String) : Except Stop Invocation :=
  match Taken.takeAll Place.first {} args with
  | .error stop => .error stop
  | .ok (_, none) => .error .usage
  | .ok (_, some (.help, rest)) => .error (helpStop rest)
  | .ok (before, some (name, rest)) =>
    match Taken.takeAll (Place.after name) {} rest with
    | .error stop => .error stop
    | .ok (behind, _) =>
      if envRoot = some "" && !(before.has .root && behind.has .root) then .error .usage
      else
        (requestOf name behind).map fun request => {
          request
          verbose := before.has .verbose || behind.has .verbose
          noColor := before.has .noColor || behind.has .noColor
          root := (behind.path? .root).or ((before.path? .root).or (envRoot.map Path.mk))
          settingsFile := (behind.path? .config).or (before.path? .config) }

end SolutionTree.Command
