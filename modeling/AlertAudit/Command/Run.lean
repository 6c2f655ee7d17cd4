import AlertAudit.Command.Invocation
import AlertAudit.Command.Load
import AlertAudit.Labels.Flow
import AlertAudit.Report
import AlertAudit.Template.Summary

/-!
What the program writes for each task and the code it ends with: zero if all is well, one if
something is wrong with what was checked or it cannot be read, and two if the arguments do not say
what to do.
-/

set_option autoImplicit false

namespace AlertAudit.Command

/-- The end of a run. -/
structure Outcome where
  code : Nat := 0
  output : String := ""
  errors : String := ""
  deriving DecidableEq, Repr

/-- A run that ends with an error. -/
def Outcome.failed (message : String) : Outcome where
  code := 1
  errors := s!"error: {message}\n"

def codeOf (fails : Bool) : Nat := if fails then 1 else 0

/-- The outcome of the check of rule files. -/
def lintOutcome (files : List SourceFile) (format : Format) (failOn : Severity) (styled : Bool) :
    Outcome :=
  let reports := files.map fun f ↦ FileReport.ofSource f.path f.source
  let code := codeOf (reports.any (·.fails failOn))
  match format with
  | .text =>
    { code, output := Report.toText styled reports
      errors := (Report.summary reports).elim "" (· ++ "\n") }
  | .json => { code, output := Report.toJson reports ++ "\n" }

/-- The outcome of showing what a template reads. As the template of a label it must not read the
sample value. -/
def templateOutcome (text : String) (isLabel : Bool) : Outcome :=
  match Template.readsOf text with
  | .error message => .failed message
  | .ok reads =>
    let problems := if isLabel then reads.labelProblems else []
    { code := codeOf !problems.isEmpty, output := reads.summary
      errors := String.join (problems.map fun problem ↦ s!"error: {problem}\n") }

/-- The outcome of showing which labels a query keeps. -/
def labelsOutcome (query : String) : Outcome :=
  match Labels.survivalOfQuery? query with
  | some survival => { output := survival.display ++ "\n" }
  | none => .failed "the query cannot be parsed"

/-- The text is styled, if the output is or is not a terminal. -/
def Color.isStyled (isTerminal : Bool) : Color → Bool
  | auto => isTerminal
  | always => true
  | never => false

def Task.run (s : Source) (isTerminal : Bool) : Task → Outcome
  | lint paths format failOn color =>
    match load s paths with
    | .error e => .failed e.message
    | .ok files => lintOutcome files format failOn (color.isStyled isTerminal)
  | template text isLabel => templateOutcome text isLabel
  | labels query => labelsOutcome query

/-- How the program is called. -/
def usage : String :=
  "Template checks for alerting rules\n\nUsage:\n" ++
    "  lint [--format text|json] [--fail-on bug|fatal] [--color auto|always|never] PATH...\n" ++
    "  template -t TEXT [--label]\n" ++
    "  labels -q QUERY\n"

/-- The outcome of arguments that do not say what to do. Help that was asked for is no error. -/
def UsageError.outcome : UsageError → Outcome
  | helpRequested => { output := usage }
  | _ => { code := 2, errors := usage }

def run (s : Source) (isTerminal : Bool) (words : List String) : Outcome :=
  match Invocation.ofWords words with
  | .error e => e.outcome
  | .ok invocation => invocation.task.run s isTerminal

end AlertAudit.Command
