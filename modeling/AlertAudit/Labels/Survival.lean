import AlertAudit.Labels.LabelSet

/-!
What is known about the labels of series. A closed result lists every label that can be present;
an open one lists labels that cannot. The boundary tells which kind of operator took labels away;
without one nothing is reported as taken away.
-/

set_option autoImplicit false

namespace AlertAudit.Labels

/-- The kind of operator that decides which labels are left. -/
inductive Boundary where
  /-- An aggregation, or a match of two operands by labels. -/
  | aggregation
  /-- The made-up series of a query for absent series. -/
  | absent
  deriving DecidableEq, Repr

/-- The boundary of two results together. -/
def Boundary.merge : Option Boundary → Option Boundary → Option Boundary
  | none, b => b
  | a, none => a
  | some .absent, some .absent => some .absent
  | some _, some _ => some .aggregation

def Boundary.name : Boundary → String
  | .aggregation => "aggregation"
  | .absent => "absent"

/-- What is known about the labels of series. -/
structure Survival where
  kept : LabelSet := ∅
  excluded : LabelSet := ∅
  /-- No label outside of `kept` can be present. -/
  closed : Bool := false
  boundary : Option Boundary := none
  deriving DecidableEq

namespace Survival

/-- Nothing is known. -/
def unknown : Survival := {}

/-- Exactly the given labels can be present. -/
def ofLabels (labels : List String) (boundary : Boundary) : Survival where
  kept := .ofList labels
  closed := true
  boundary := some boundary

/-- Nothing has been taken away. -/
def isUnknown (s : Survival) : Bool := s.boundary.isNone

def mayCarry (s : Survival) (label : String) : Bool :=
  label ∉ s.excluded && (!s.closed || label ∈ s.kept)

/-- What takes a label away, if it cannot be present. -/
def removes (s : Survival) (label : String) : Option Boundary :=
  if s.mayCarry label then none else s.boundary

/-- The labels that each of two operands can give to their common series. -/
def combine (a b : Survival) : Survival :=
  let kept := match a.closed, b.closed with
    | true, true => a.kept.inter b.kept
    | true, false => a.kept.diff b.excluded
    | false, true => b.kept.diff a.excluded
    | false, false => ∅
  { kept
    excluded := (a.excluded.union b.excluded).diff kept
    closed := a.closed || b.closed
    boundary := Boundary.merge a.boundary b.boundary }

/-- The result in which a label may be present. -/
def allow (s : Survival) (label : String) : Survival :=
  { s with kept := s.kept.insert label, excluded := s.excluded.erase label }

/-- The result in which a label cannot be present. -/
def exclude (s : Survival) (label : String) : Survival :=
  { s with kept := s.kept.erase label, excluded := s.excluded.insert label }

@[simp] theorem mayCarry_unknown (l : String) : unknown.mayCarry l := by
  simp [mayCarry, unknown]

@[simp] theorem mayCarry_ofLabels (labels : List String) (boundary : Boundary) (l : String) :
    (ofLabels labels boundary).mayCarry l ↔ l ∈ labels := by
  simp [mayCarry, ofLabels]

@[simp] theorem mayCarry_allow (s : Survival) (m l : String) :
    (s.allow m).mayCarry l ↔ l = m ∨ s.mayCarry l := by
  by_cases h : l = m <;> simp [mayCarry, allow, h]

@[simp] theorem mayCarry_exclude (s : Survival) (m l : String) :
    (s.exclude m).mayCarry l ↔ l ≠ m ∧ s.mayCarry l := by
  by_cases h : l = m <;> simp [mayCarry, exclude, h]

@[simp] theorem mayCarry_boundary (s : Survival) (b : Option Boundary) (l : String) :
    ({ s with boundary := b } : Survival).mayCarry l = s.mayCarry l := rfl

@[simp] theorem mayCarry_foldl_allow (ms : List String) (s : Survival) (l : String) :
    (ms.foldl allow s).mayCarry l ↔ l ∈ ms ∨ s.mayCarry l := by
  induction ms generalizing s with
  | nil => simp
  | cons m ms ih => simp [ih, or_left_comm, or_assoc]

@[simp] theorem mayCarry_foldl_exclude (ms : List String) (s : Survival) (l : String) :
    (ms.foldl exclude s).mayCarry l ↔ l ∉ ms ∧ s.mayCarry l := by
  induction ms generalizing s with
  | nil => simp
  | cons m ms ih => simp [ih, and_left_comm, and_assoc]

/-- A label that both operands may carry stays possible. -/
theorem mayCarry_combine {a b : Survival} {l : String} (ha : a.mayCarry l) (hb : b.mayCarry l) :
    (a.combine b).mayCarry l := by
  cases hac : a.closed <;> cases hbc : b.closed <;>
    simp_all [mayCarry, combine]

/-- Only a label that cannot be present is reported. -/
theorem not_mayCarry_of_removes {s : Survival} {l : String} {b : Boundary}
    (h : s.removes l = some b) : ¬ s.mayCarry l := by
  intro hcarry
  simp [removes, hcarry] at h

/-- One line that shows a result. -/
def display (s : Survival) : String :=
  let join := fun set : LabelSet ↦ ",".intercalate set.toList
  (if s.closed then "closed" else "open") ++ " kept=[" ++ join s.kept ++ "] excluded=[" ++
    join s.excluded ++ "] boundary=" ++ (s.boundary.map Boundary.name).getD "none"

end Survival

end AlertAudit.Labels
