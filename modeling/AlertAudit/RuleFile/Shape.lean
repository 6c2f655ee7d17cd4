import AlertAudit.Yaml.Document
import AlertAudit.Yaml.Layout

/-!
The shape of rule files. A document is a list of rules, or a mapping whose `groups` hold such
lists. Tags do not matter for the shape, and null stands for an empty list or mapping. Groups and
rules may also be written as sequences of their fields.
-/

set_option autoImplicit false

namespace AlertAudit.Shape

open AlertAudit.Yaml (Node)

/-- The fields of a rule that matter, before they are texts. -/
structure RuleFields where
  alert : Option Node := none
  record : Option Node := none
  expr : Option Node := none
  labels : Option (List (String × Node)) := none
  annotations : Option (List (String × Node)) := none
  deriving Inhabited

/-- The text of a string. -/
def string? (node : Node) : Option String :=
  match node.untagged with
  | .string s => some s
  | _ => none

/-- A value that null leaves out. -/
def optional : Node → Option Node
  | .null => none
  | node => some node

/-- Sets the value of a key, which keeps its place if it is there. -/
def setEntry (key : String) (value : Node) : List (String × Node) → List (String × Node)
  | [] => [(key, value)]
  | (k, v) :: rest => if k = key then (k, value) :: rest else (k, v) :: setEntry key value rest

/-- The entries of a mapping whose keys are strings. -/
def stringEntries? (entries : List (Node × Node)) : Option (List (String × Node)) :=
  entries.mapM fun (key, value) ↦ (string? key).map (·, value)

/-- The entries of labels or annotations; null leaves them out. -/
def texts? (node : Node) : Option (Option (List (String × Node))) :=
  match node with
  | .null => some none
  | node =>
    match node.untagged with
    | .null => some (some [])
    | .mapping entries =>
      (stringEntries? entries).map fun es ↦
        some (es.foldl (fun acc (key, value) ↦ setEntry key value acc) [])
    | _ => none

/-- The value of a field, at most once among the entries. -/
def field? (name : String) (entries : List (String × Node)) : Option (Option Node) :=
  match entries.filter (·.1 = name) with
  | [] => some none
  | [(_, value)] => some (some value)
  | _ => none

/-- The fields of a rule from their values. -/
def ruleOfValues? (alert record expr labels annotations : Option Node) : Option RuleFields := do
  return {
    alert := alert.bind optional
    record := record.bind optional
    expr := expr.bind optional
    labels := ← labels.elim (some none) texts?
    annotations := ← annotations.elim (some none) texts? }

def rule? (node : Node) : Option RuleFields :=
  match node.untagged with
  | .null => some {}
  | .mapping entries => do
    let es ← stringEntries? entries
    ruleOfValues? (← field? "alert" es) (← field? "record" es) (← field? "expr" es)
      (← field? "labels" es) (← field? "annotations" es)
  | .sequence [alert, record, expr, labels, annotations] =>
    ruleOfValues? (some alert) (some record) (some expr) (some labels) (some annotations)
  | _ => none

/-- The items of a list; null has none. -/
def items? (node : Node) : Option (List Node) :=
  match node.untagged with
  | .null => some []
  | .sequence items => some items
  | _ => none

def rules? (node : Node) : Option (List RuleFields) := do (← items? node).mapM rule?

/-- The rules of a group. -/
def group? (node : Node) : Option (List RuleFields) :=
  match node.untagged with
  | .null => some []
  | .mapping entries => do
    match ← field? "rules" (← stringEntries? entries) with
    | some rules => rules? rules
    | none => return []
  | .sequence [] => some []
  | .sequence [rules] => rules? rules
  | _ => none

def groups? (node : Node) : Option (List RuleFields) := do
  return (← (← items? node).mapM group?).flatten

/-- The value of the key `groups`. -/
def groupsOf? (node : Node) : Option Node :=
  match node.untagged with
  | .mapping entries =>
    (entries.find? fun (key, _) ↦ match key with
      | .string s => s = "groups"
      | _ => false).map (·.2)
  | _ => none

end AlertAudit.Shape
