import AlertAudit.Diagnostic.Kind
import AlertAudit.RuleFile.LineRange

/-!
Diagnostics: problems found in a rule file, each with the lines that it affects. A list of them is
in the order in which they were found until it is sorted by line.
-/

set_option autoImplicit false

namespace AlertAudit

structure Diagnostic where
  kind : ProblemKind
  reporter : String
  message : String
  /-- The entry as messages quote it. -/
  excerpt : String := ""
  /-- Every affected line, ascending and without repetition. -/
  lines : List Nat
  /-- The lines of the entry that the problem was found in. -/
  anchor : LineRange
  details : List String := []
  deriving DecidableEq, Repr, Inhabited

namespace Diagnostic

/-- Adds a number to an ascending list without repetition. -/
def insertLine (n : Nat) : List Nat → List Nat
  | [] => [n]
  | m :: ms => if n < m then n :: m :: ms else if n = m then m :: ms else m :: insertLine n ms

/-- The numbers of a list, ascending and without repetition. -/
def sortLines (ns : List Nat) : List Nat := ns.foldr insertLine []

theorem mem_insertLine {n k : Nat} {ms : List Nat} : k ∈ insertLine n ms ↔ k = n ∨ k ∈ ms := by
  induction ms with
  | nil => simp [insertLine]
  | cons m ms ih =>
    simp only [insertLine]
    split
    · simp
    · split
      · subst n
        simp
      · simp only [List.mem_cons, ih]
        exact or_left_comm

theorem mem_sortLines {k : Nat} {ns : List Nat} : k ∈ sortLines ns ↔ k ∈ ns := by
  induction ns with
  | nil => simp [sortLines]
  | cons n ns ih => simpa [sortLines, mem_insertLine] using or_congr_right ih

/-- A problem at the lines of an entry and further lines that play a part in it. -/
def report (kind : ProblemKind) (reporter : String) (anchor : LineRange) (detail : Option String)
    (excerpt : String) (further : List LineRange) (details : List String) : Diagnostic where
  kind := kind
  reporter := reporter
  message := kind.message detail
  excerpt := excerpt
  lines := sortLines (anchor.lines ++ further.flatMap LineRange.lines)
  anchor := anchor
  details := details

def severity (d : Diagnostic) : Severity := d.kind.severity

/-- A diagnostic on one line. -/
def toText (d : Diagnostic) : String :=
  let lines := String.intercalate "," (d.lines.map toString)
  let notes := String.join (d.details.map fun note ↦ s!" (note: {note})")
  s!"{d.severity.name} {lines}: {d.message} [{d.reporter}]" ++ notes

end Diagnostic

/-- Diagnostics in some order. -/
abbrev Diagnostics := List Diagnostic

namespace Diagnostics

def countOf (s : Severity) (ds : Diagnostics) : Nat := ds.countP (·.severity = s)

/-- There is a problem at least as severe as a threshold. -/
def reaches (threshold : Severity) (ds : Diagnostics) : Bool :=
  ds.any fun d ↦ threshold.rank ≤ d.severity.rank

/-- Sorts by the first line of the entry. Diagnostics at the same line keep their order. -/
def sortByLine (ds : Diagnostics) : Diagnostics :=
  ds.mergeSort fun a b ↦ a.anchor.first ≤ b.anchor.first

end Diagnostics

end AlertAudit
