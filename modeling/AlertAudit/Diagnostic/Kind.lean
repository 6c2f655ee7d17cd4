/-!
The kinds of problems in templates, how severe each is, and its wording. A message either stands
alone or has a place for a detail: a parse error, a label or the way a value is read.
-/

set_option autoImplicit false

namespace AlertAudit

inductive Severity where
  | bug
  | fatal
  deriving DecidableEq, Repr, Inhabited

namespace Severity

/-- Severities in ascending order. -/
def rank : Severity → Nat
  | bug => 0
  | fatal => 1

def name : Severity → String
  | bug => "bug"
  | fatal => "fatal"

end Severity

inductive ProblemKind where
  /-- The template cannot be parsed. -/
  | templateSyntax
  /-- A label depends on the sample value, so every new value makes a new alert. -/
  | valueInLabels
  /-- The template reads a label that the query removes. -/
  | labelRemovedByQuery
  /-- The template reads a label that a test for absence does not pass on. -/
  | labelNotPassedByAbsent
  deriving DecidableEq, Repr, Inhabited

namespace ProblemKind

def name : ProblemKind → String
  | templateSyntax => "template_syntax"
  | valueInLabels => "value_in_labels"
  | labelRemovedByQuery => "label_removed_by_query"
  | labelNotPassedByAbsent => "label_not_passed_by_absent"

def severity : ProblemKind → Severity
  | templateSyntax => .fatal
  | _ => .bug

/-- The message of a kind without a detail. -/
def general : ProblemKind → String
  | templateSyntax => "template parse error"
  | valueInLabels =>
    "using $value in labels will generate a new alert on every value change, " ++
      "move it to annotations"
  | labelRemovedByQuery => "template is using a label but the query removes it"
  | labelNotPassedByAbsent => "template is using a label but absent() is not passing it"

/-- What stands before and behind the detail in a message. -/
def frame : ProblemKind → String × String
  | templateSyntax => ("template parse error: ", "")
  | valueInLabels =>
    ("using ",
      " in labels will generate a new alert on every value change, move it to annotations")
  | labelRemovedByQuery => ("template is using \"", "\" label but the query removes it")
  | labelNotPassedByAbsent => ("template is using \"", "\" label but absent() is not passing it")

/-- The message of a kind with a pair of braces in the place of the detail. -/
def pattern (k : ProblemKind) : String := k.frame.1 ++ "\x7b\x7d" ++ k.frame.2

/-- The message of a kind, with a detail or without. -/
def message (k : ProblemKind) : Option String → String
  | none => k.general
  | some detail => k.frame.1 ++ detail ++ k.frame.2

end ProblemKind

end AlertAudit
