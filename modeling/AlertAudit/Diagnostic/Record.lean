import AlertAudit.Diagnostic.Basic
import AlertAudit.Text.Json

/-!
Diagnostics as JSON records. The lines of the entry are not written apart from the affected lines,
and details only where there are some.
-/

set_option autoImplicit false

namespace AlertAudit

open AlertAudit.Text (Json)

def Diagnostic.toJson (d : Diagnostic) : Json :=
  .object ([
    ("kind", .string d.kind.name),
    ("severity", .string d.severity.name),
    ("reporter", .string d.reporter),
    ("message", .string d.message),
    ("fragment", .string d.excerpt),
    ("lines", .array (d.lines.map .number))] ++
      if d.details.isEmpty then [] else [("details", .array (d.details.map .string))])

def Diagnostics.toJson (ds : Diagnostics) : Json := .array (ds.map Diagnostic.toJson)

end AlertAudit
