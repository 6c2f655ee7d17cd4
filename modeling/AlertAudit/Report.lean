import AlertAudit.Check
import AlertAudit.Diagnostic.Record
import AlertAudit.Diagnostic.Render

/-!
Reports on rule files. A file either has diagnostics or cannot be read, which always counts as a
failure. Reports are written as text, with a snippet for each diagnostic, or as JSON, and counted
in one line.
-/

set_option autoImplicit false

namespace AlertAudit

open AlertAudit.Text (Json)

/-- What came of the check of a rule file. -/
structure FileReport where
  path : String
  source : String
  /-- The diagnostics, or why the file cannot be read. -/
  result : Except String Diagnostics

namespace FileReport

def ofSource (path source : String) : FileReport where
  path := path
  source := source
  result := (Check.source source).mapError ReadError.message

/-- The diagnostics; a file that cannot be read has none. -/
def diagnostics (r : FileReport) : Diagnostics := r.result.toOption.getD []

/-- The file cannot be read. -/
def isUnreadable (r : FileReport) : Bool :=
  match r.result with
  | .ok _ => false
  | .error _ => true

/-- The file cannot be read or has a problem at least as severe as the threshold. -/
def fails (threshold : Severity) (r : FileReport) : Bool :=
  r.isUnreadable || r.diagnostics.reaches threshold

/-- The report as text; nothing if there are no diagnostics. -/
def toText (styled : Bool) (r : FileReport) : String :=
  match r.result with
  | .ok [] => ""
  | .ok ds => ds.render (some r.path) r.source styled ++ "\n"
  | .error message => s!"error: {r.path}: {message}\n"

def toJson (r : FileReport) : Json :=
  let error := match r.result with
    | .ok _ => []
    | .error message => [("error", Json.string message)]
  .object ([("path", Json.string r.path)] ++ error ++ [("diagnostics", r.diagnostics.toJson)])

end FileReport

namespace Report

def toText (styled : Bool) (rs : List FileReport) : String :=
  String.join (rs.map (FileReport.toText styled))

/-- Reports as JSON on several lines, without a line break at the end. -/
def toJson (rs : List FileReport) : String := Json.pretty 0 (.array (rs.map FileReport.toJson))

/-- A number with a noun, which has an `s` at its end unless the number is one. -/
def counted (n : Nat) (noun : String) : String :=
  if n = 1 then s!"{n} {noun}" else s!"{n} {noun}s"

/-- The number of problems of a severity in all reports. -/
def countOf (s : Severity) (rs : List FileReport) : Nat :=
  rs.foldr (fun r n ↦ r.diagnostics.countOf s + n) 0

/-- The numbers of problems, files and unreadable files; `none` if nothing is wrong. -/
def summary (rs : List FileReport) : Option String :=
  let fatal := countOf .fatal rs
  let bugs := countOf .bug rs
  let unreadable := rs.countP (·.isUnreadable)
  if fatal = 0 ∧ bugs = 0 ∧ unreadable = 0 then none
  else
    let counts := s!"{fatal} fatal, " ++ counted bugs "bug" ++ " in " ++ counted rs.length "file"
    some (if unreadable = 0 then counts else counts ++ s!" ({unreadable} unreadable)")

end Report

end AlertAudit
