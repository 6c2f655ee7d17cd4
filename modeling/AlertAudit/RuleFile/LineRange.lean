/-!
Runs of lines of a rule file. Lines are counted from one, and the last line belongs to the run.
-/

set_option autoImplicit false

namespace AlertAudit

/-- The lines from `first` to `last`. -/
structure LineRange where
  first : Nat
  last : Nat
  deriving DecidableEq, Repr, Inhabited

namespace LineRange

def single (line : Nat) : LineRange := ⟨line, line⟩

/-- The shortest run that has all lines of both. -/
def cover (a b : LineRange) : LineRange := ⟨min a.first b.first, max a.last b.last⟩

def contains (r : LineRange) (line : Nat) : Bool := r.first ≤ line && line ≤ r.last

def lines (r : LineRange) : List Nat := List.range' r.first (r.last + 1 - r.first)

/-- The order by first line, then by last line. -/
def compare (a b : LineRange) : Ordering :=
  (Ord.compare a.first b.first).then (Ord.compare a.last b.last)

/-- The longest runs of consecutive numbers in a list. -/
def runsOf : List Nat → List LineRange
  | [] => []
  | line :: rest =>
    match runsOf rest with
    | run :: runs =>
      if run.first = line + 1 then ⟨line, run.last⟩ :: runs else single line :: run :: runs
    | [] => [single line]

/-- A run in writing: `4`, or `4-7`. -/
def toText (r : LineRange) : String :=
  if r.first = r.last then toString r.first else s!"{r.first}-{r.last}"

end LineRange

end AlertAudit
