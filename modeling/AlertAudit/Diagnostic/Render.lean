import AlertAudit.Diagnostic.Basic
import AlertAudit.Diagnostic.Extent
import AlertAudit.Snippet.Draw

/-!
Diagnostics as text: a snippet of the rule file for each, or a line for each where the rule file is
not at hand.
-/

set_option autoImplicit false

namespace AlertAudit

open AlertAudit.Snippet

namespace Diagnostic

/-- The affected lines outside of the entry, as runs. -/
def furtherRuns (d : Diagnostic) : List LineRange :=
  LineRange.runsOf (d.lines.filter fun line ↦ !d.anchor.contains line)

/-- The marks of a diagnostic: the entry with the message, the further lines, which are those of the
query, and the entry again for each detail. -/
def marks (d : Diagnostic) (source : String) : List Mark :=
  let cs := source.toList
  let entry := d.anchor.extent cs
  { span := entry, label := d.message, isPrimary := true } ::
    (d.furtherRuns.map fun run ↦ { span := run.extent cs, label := "query", isPrimary := false }) ++
    d.details.map fun detail ↦ { span := entry, label := detail, isPrimary := false }

def snippet (d : Diagnostic) (path : Option String) (source : String) : Snippet where
  isError := d.severity = .fatal
  title := d.message
  path := path
  source := source
  marks := d.marks source

end Diagnostic

namespace Diagnostics

/-- Diagnostics with a line each, behind the path of the rule file if there is one. -/
def toText (ds : Diagnostics) (path : Option String) : String :=
  let lead := path.elim "" (· ++ ":")
  String.intercalate "\n" (ds.map fun d ↦ lead ++ d.toText)

def render (ds : Diagnostics) (path : Option String) (source : String) (styled : Bool) : String :=
  String.intercalate "\n" (ds.map fun d ↦ (d.snippet path source).toText styled)

end Diagnostics

end AlertAudit
