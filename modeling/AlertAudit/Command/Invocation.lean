import AlertAudit.Command.Arguments
import AlertAudit.Diagnostic.Kind

/-!
What the program is asked to do: to check rule files, to show what a template reads, or to show
which labels a query keeps. The count of `-v` may stand in front of the command or behind it; one
behind it hides one in front.
-/

set_option autoImplicit false

namespace AlertAudit.Command

inductive Format where
  | text
  | json
  deriving DecidableEq, Repr

/-- When text is styled. -/
inductive Color where
  /-- When it is shown on a terminal. -/
  | auto
  | always
  | never
  deriving DecidableEq, Repr

/-- A task with its particulars. -/
inductive Task where
  | lint (paths : List String) (format : Format) (failOn : Severity) (color : Color)
  | template (text : String) (isLabel : Bool)
  | labels (query : String)
  deriving DecidableEq, Repr

/-- A task, and how much is told about its progress. -/
structure Invocation where
  verbosity : Nat
  task : Task
  deriving DecidableEq, Repr

inductive Name where
  | lint
  | template
  | labels
  deriving DecidableEq, Repr

namespace Name

/-- A command by its name. -/
def ofText? : String → Option Name
  | "lint" => some lint
  | "template" => some template
  | "labels" => some labels
  | _ => none

/-- The switches that all commands take. -/
def commonSwitches : List Switch := [
  { short := some 'v', long := "verbose", effect := .count },
  { short := some 'h', long := "help", effect := .help }]

/-- The arguments of a command. -/
def grammar : Name → Grammar
  | lint => {
      switches := commonSwitches ++ [
        { long := "format", effect := .choice ["text", "json"] },
        { long := "fail-on", effect := .choice ["bug", "fatal"] },
        { long := "color", effect := .choice ["auto", "always", "never"] }]
      takesPaths := true }
  | template => {
      switches := commonSwitches ++ [
        { short := some 't', long := "text", effect := .text },
        { long := "label", effect := .flag }] }
  | labels => {
      switches := commonSwitches ++ [
        { short := some 'q', long := "query", effect := .text }] }

/-- The task that the arguments of a command describe. -/
def task (name : Name) (g : Given) : Except UsageError Task :=
  match name with
  | lint =>
    if g.paths.isEmpty then .error .missingArgument
    else
      let format := if g.values.lookup "format" = some "json" then .json else .text
      let failOn := if g.values.lookup "fail-on" = some "fatal" then .fatal else .bug
      let color := match g.values.lookup "color" with
        | some "always" => .always
        | some "never" => .never
        | _ => .auto
      .ok (.lint g.paths format failOn color)
  | template =>
    match g.values.lookup "text" with
    | some text => .ok (.template text (g.flags.contains "label"))
    | none => .error .missingArgument
  | labels =>
    match g.values.lookup "query" with
    | some query => .ok (.labels query)
    | none => .error .missingArgument

end Name

namespace Invocation

/-- The arguments in front of the command. -/
def grammar : Grammar where
  switches := Name.commonSwitches
  strayError := .unknownCommand

/-- The word names a command or asks for help on one. -/
def isCommand (word : String) : Bool := (Name.ofText? word).isSome || word = "help"

/-- What asking for help on some words comes to: help, if they name at most one command. -/
def helpOn (words : List String) : UsageError :=
  if words.length ≤ 1 && words.all isCommand then .helpRequested else .unknownCommand

/-- Reads the arguments in front of the command, the command and its arguments. A command behind a
double dash is a stray argument. -/
def ofWordsFrom (g : Given) : List String → Except UsageError Invocation
  | [] => .error (if g.count = 0 then .nothingGiven else .missingCommand)
  | word :: rest =>
    match Name.ofText? word with
    | some name => do
      let own ← name.grammar.takeAll {} rest
      return ⟨if own.count = 0 then g.count else own.count, ← name.task own⟩
    | none =>
      if word = "help" then .error (helpOn rest)
      else if word = "--" then
        match rest with
        | [] => ofWordsFrom g []
        | stray :: _ => .error (if isCommand stray then .unknownArgument else .unknownCommand)
      else do ofWordsFrom (← grammar.takeWord g word) rest

/-- What the program is asked to do by its arguments. -/
def ofWords (words : List String) : Except UsageError Invocation := ofWordsFrom {} words

end Invocation

end AlertAudit.Command
