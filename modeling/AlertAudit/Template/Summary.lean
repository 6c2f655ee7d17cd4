import AlertAudit.Diagnostic.Kind
import AlertAudit.Template.Reads

/-!
What a template reads, in writing: a line for each label, each read of the sample value and each
function call, with the number of line breaks before it.
-/

set_option autoImplicit false

namespace AlertAudit.Template

def Mention.toLine (sort : String) (m : Mention) : String := s!"{sort} {m.name} (line {m.line})"

/-- The line for a read of the sample value, with the names it went through if there are several. -/
def ValueRead.toLine (v : ValueRead) : String :=
  v.toMention.toLine "value" ++
    if 1 < v.chain.length then " via " ++ String.intercalate " -> " v.chain else ""

namespace Reads

/-- The summary of what a template reads. -/
def summary (r : Reads) : String :=
  let lines := r.labels.map (Mention.toLine "label") ++ r.values.map ValueRead.toLine ++
    r.calls.map (Mention.toLine "func")
  String.join (lines.map (· ++ "\n"))

/-- The problems that the template has as the template of a label. -/
def labelProblems (r : Reads) : List String :=
  r.distinctValues.map fun v ↦ ProblemKind.valueInLabels.message (some v.name)

end Reads

/-- What a template reads, or the message that it does not parse. -/
def readsOf (text : String) : Except String Reads :=
  (Reads.ofText text).mapError fun e ↦ ProblemKind.templateSyntax.message (some e.message)

end AlertAudit.Template
