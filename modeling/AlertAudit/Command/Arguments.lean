/-!
Arguments of a command. A switch is given by its short or its long name, takes a value or none, and
may stand in front of or behind the paths. A value follows the name as the next argument, or stands
in the same one: `-tx`, `-t=x`, `--text=x`. A value as an argument of its own cannot begin with a
dash unless it is the dash alone. Behind a double dash all arguments are paths.

A value or path that is an argument of its own is examined only when the next switch or the end of
the arguments completes it, so of two faults a later one may be found first.
-/

set_option autoImplicit false

namespace AlertAudit.Command

/-- Why arguments do not say what to do. -/
inductive UsageError where
  /-- They ask for help. -/
  | helpRequested
  /-- There are none. -/
  | nothingGiven
  | missingCommand
  | unknownCommand
  | unknownArgument
  | invalidValue
  | missingArgument
  | repeatedArgument
  /-- A switch that takes no value has one. -/
  | unneededValue
  deriving DecidableEq, Repr

/-- What a switch stands for. -/
inductive Effect where
  | help
  /-- How often the switch is given. -/
  | count
  /-- Whether the switch is given. -/
  | flag
  /-- A text that follows. -/
  | text
  /-- One of some words that follows. -/
  | choice (words : List String)
  deriving DecidableEq, Repr

namespace Effect

/-- A value follows. -/
def takesValue : Effect → Bool
  | text | choice _ => true
  | _ => false

/-- The value is allowed. -/
def accepts (value : String) : Effect → Bool
  | choice words => words.contains value
  | _ => true

end Effect

structure Switch where
  short : Option Char := none
  long : String
  effect : Effect
  deriving DecidableEq, Repr

/-- What is begun and not yet complete. -/
inductive Pending where
  | nothing
  /-- A switch that takes a value, and the value if it has been seen. -/
  | value (s : Switch) (seen : Option String)
  | paths (seen : List String)
  deriving DecidableEq, Repr

structure Given where
  count : Nat := 0
  flags : List String := []
  values : List (String × String) := []
  paths : List String := []
  pending : Pending := .nothing
  deriving DecidableEq, Repr

namespace Given

def setValue (g : Given) (s : Switch) (value : String) : Except UsageError Given :=
  if (g.values.lookup s.long).isSome then .error .repeatedArgument
  else if s.effect.accepts value then .ok { g with values := g.values ++ [(s.long, value)] }
  else .error .invalidValue

/-- Completes what is pending. No path is empty. -/
def settle (g : Given) : Except UsageError Given :=
  match g.pending with
  | .nothing => .ok g
  | .value _ none => .error .invalidValue
  | .value s (some value) => { g with pending := .nothing }.setValue s value
  | .paths seen =>
    if seen.contains "" then .error .invalidValue
    else .ok { g with pending := .nothing, paths := g.paths ++ seen }

/-- The greatest number that a count reaches. -/
def maxCount : Nat := 255

/-- Takes a switch whose value, if it has one, is the next argument. -/
def takeSwitch (g : Given) (s : Switch) : Except UsageError Given := do
  let g ← g.settle
  match s.effect with
  | .help => throw .helpRequested
  | .count => return { g with count := min (g.count + 1) maxCount }
  | .flag =>
    if g.flags.contains s.long then throw .repeatedArgument
    else return { g with flags := s.long :: g.flags }
  | .text | .choice _ => return { g with pending := .value s none }

def takeAttached (g : Given) (s : Switch) (value : String) : Except UsageError Given := do
  if s.effect.takesValue then (← g.settle).setValue s value else throw .unneededValue

end Given

/-- The arguments that a command takes. -/
structure Grammar where
  switches : List Switch
  takesPaths : Bool := false
  /-- What is wrong with a path where none is taken. -/
  strayError : UsageError := .unknownArgument
  deriving DecidableEq, Repr

namespace Grammar

def takePath (gr : Grammar) (g : Given) (path : String) : Except UsageError Given := do
  if !gr.takesPaths then throw gr.strayError
  match g.pending with
  | .paths seen => return { g with pending := .paths (seen ++ [path]) }
  | _ => return { ← g.settle with pending := .paths [path] }

/-- Takes an argument that is no switch. -/
def takePlain (gr : Grammar) (g : Given) (word : String) : Except UsageError Given :=
  match g.pending with
  | .value s none => .ok { g with pending := .value s (some word) }
  | _ => gr.takePath g word

/-- Takes switches by their short names. What follows the name of one that takes a value is its
value, with or without an equals sign in front. -/
def takeShort (gr : Grammar) (g : Given) : List Char → Except UsageError Given
  | [] => .ok g
  | c :: rest =>
    match gr.switches.find? (·.short = some c) with
    | none => .error .unknownArgument
    | some s =>
      if s.effect.takesValue then
        match rest with
        | [] => g.takeSwitch s
        | '=' :: value => g.takeAttached s (String.ofList value)
        | value => g.takeAttached s (String.ofList value)
      else do takeShort gr (← g.takeSwitch s) rest

/-- Takes a switch by its long name. -/
def takeLong (gr : Grammar) (g : Given) (word : List Char) : Except UsageError Given :=
  let name := word.takeWhile (· ≠ '=')
  match gr.switches.find? (·.long.toList = name) with
  | none => .error .unknownArgument
  | some s =>
    match word.drop name.length with
    | [] => g.takeSwitch s
    | _ :: value => g.takeAttached s (String.ofList value)

/-- Takes an argument in front of a double dash. -/
def takeWord (gr : Grammar) (g : Given) (word : String) : Except UsageError Given :=
  match word.toList with
  | '-' :: '-' :: name => gr.takeLong g name
  | '-' :: c :: rest => gr.takeShort g (c :: rest)
  | _ => gr.takePlain g word

def takeAll (gr : Grammar) (g : Given) : List String → Except UsageError Given
  | [] => g.settle
  | word :: rest =>
    if word = "--" then do (← rest.foldlM gr.takePath g).settle
    else do takeAll gr (← gr.takeWord g word) rest

end Grammar

end AlertAudit.Command
