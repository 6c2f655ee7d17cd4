/-!
The functions that a template may call: the general ones, and those that alert templates add.
-/

set_option autoImplicit false

namespace AlertAudit.Template.Builtin

/-- Functions that every template has. -/
def general : List String :=
  ["and", "call", "html", "index", "slice", "js", "len", "not", "or", "print", "printf", "println",
    "urlquery", "eq", "ge", "gt", "le", "lt", "ne"]

/-- Functions that alert templates add. -/
def alerting : List String :=
  ["query", "first", "label", "value", "strvalue", "args", "reReplaceAll", "safeHtml", "match",
    "title", "toUpper", "toLower", "graphLink", "tableLink", "sortByLabel", "humanize",
    "humanize1024", "humanizeDuration", "humanizePercentage", "humanizeTimestamp", "toTime",
    "toDuration", "pathPrefix", "externalURL", "parseDuration", "stripPort", "stripDomain", "now"]

/-- Whether a template may call a function of this name. -/
def isDefined (name : String) : Bool := general.contains name || alerting.contains name

end AlertAudit.Template.Builtin
