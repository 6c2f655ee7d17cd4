import AlertAudit.Diagnostic.Basic
import AlertAudit.Labels.Flow
import AlertAudit.RuleFile.Read
import AlertAudit.Template.Reads

/-!
The check of a rule's templates against its query. Alerting rules have templates in the keys and
values of labels and in the values of annotations. A template that does not parse gives one
diagnostic and nothing else. Otherwise labels must not depend on the sample value, and no template
may read a label that the query has removed; without a query that parses, the latter is not
checked.
-/

set_option autoImplicit false

namespace AlertAudit.Check

open AlertAudit.Template

/-- The sections of a rule that hold templates. -/
inductive Section where
  | labels
  | annotations
  deriving DecidableEq, Repr

/-- What is known of the labels of a query's result, and the lines of the query. -/
structure QueryLabels where
  survival : Labels.Survival
  lines : LineRange

/-- The name that diagnostics of this check carry. -/
def reporter : String := "template"

/-- What is known of the labels of a rule's query, if it has one that parses. -/
def queryLabels? (query : Option (Located String)) : Option QueryLabels :=
  query.bind fun q ↦ (Labels.survivalOfQuery? q.value).map (⟨·, q.lines⟩)

/-- A diagnostic at an entry. -/
def problem (e : Entry) (kind : ProblemKind) (detail : String) (further : List LineRange)
    (details : List String) : Diagnostic :=
  .report kind reporter e.lines (some detail) e.excerpt further details

def valueProblems (e : Entry) (r : Reads) : Diagnostics :=
  r.distinctValues.map fun v ↦
    problem e .valueInLabels v.name []
      (if 1 < v.chain.length then ["alias chain: " ++ String.intercalate " -> " v.chain] else [])

/-- The kind of problem that a read of a removed label is. -/
def kindOfRemoval : Labels.Boundary → ProblemKind
  | .aggregation => .labelRemovedByQuery
  | .absent => .labelNotPassedByAbsent

/-- The diagnostics for reads of labels that the query has removed. -/
def labelProblems (e : Entry) (r : Reads) (q : QueryLabels) : Diagnostics :=
  r.labels.filterMap fun access ↦
    (q.survival.removes access.name).map fun boundary ↦
      problem e (kindOfRemoval boundary) access.name [q.lines] []

/-- The diagnostics for one template of an entry. -/
def template (s : Section) (q : Option QueryLabels) (e : Entry) (text : String) : Diagnostics :=
  match Reads.ofText text with
  | .error err => [problem e .templateSyntax err.message [] []]
  | .ok r =>
    (match s with
      | .labels => valueProblems e r
      | .annotations => []) ++ q.elim [] (labelProblems e r)

/-- The templates of an entry. The keys of annotations are plain text. -/
def templates (s : Section) (e : Entry) : List String :=
  match s with
  | .labels => [e.key.value, e.value.value]
  | .annotations => [e.value.value]

/-- The diagnostics for an entry. -/
def entry (s : Section) (q : Option QueryLabels) (e : Entry) : Diagnostics :=
  (templates s e).flatMap (template s q e)

/-- The diagnostics for a rule, by line. Recording rules have no templates. -/
def rule (r : Rule) : Diagnostics :=
  match r.kind with
  | .recording => []
  | .alerting =>
    let q := queryLabels? r.query
    Diagnostics.sortByLine
      (r.labels.flatMap (entry .labels q) ++ r.annotations.flatMap (entry .annotations q))

/-- The diagnostics for all rules of a rule file, by line. -/
def source (text : String) : Except ReadError Diagnostics := do
  return Diagnostics.sortByLine ((← RuleFile.read text).flatMap rule)

end AlertAudit.Check
