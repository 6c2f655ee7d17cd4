import AlertAudit.RuleFile.LineRange

/-!
Rules as they stand in a rule file. Every text that a message can quote carries the lines that it
was read from.
-/

set_option autoImplicit false

namespace AlertAudit

/-- A value with the lines that it was read from. -/
structure Located (α : Type) where
  value : α
  lines : LineRange
  deriving DecidableEq, Repr

/-- One entry of the labels or annotations of a rule. Both sides are templates. -/
structure Entry where
  key : Located String
  value : Located String
  deriving DecidableEq, Repr

namespace Entry

/-- The lines of the entry, from its key to the end of its value. -/
def lines (e : Entry) : LineRange := e.key.lines.cover e.value.lines

/-- The entry as messages quote it. -/
def excerpt (e : Entry) : String := e.key.value ++ ": " ++ e.value.value

end Entry

/-- The sorts of rules. -/
inductive RuleKind where
  | alerting
  | recording
  deriving DecidableEq, Repr

structure Rule where
  kind : RuleKind
  name : String
  /-- The lines of the list item that holds the rule. -/
  lines : LineRange
  query : Option (Located String)
  labels : List Entry
  annotations : List Entry
  deriving DecidableEq, Repr

end AlertAudit
