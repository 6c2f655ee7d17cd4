import AlertAudit.Labels.Survival
import AlertAudit.Query.Parser

/-!
Which labels the series of a query can have. Selectors yield series with any labels; aggregations,
matches of operands and queries for absent series take labels away. `survival` follows a query
from the selectors up, and `absence` is what a query for the absence of an expression yields.
-/

set_option autoImplicit false

namespace AlertAudit.Labels

open AlertAudit.Query

namespace Survival

/-- The result of an aggregation, without the label that counts of values add. -/
def grouped (grouping : Option Grouping) (inner : Survival) : Survival :=
  match grouping with
  | some (.by labels) => ofLabels (labels.filter inner.mayCarry) .aggregation
  | some (.without labels) =>
    { labels.foldl exclude inner with boundary := some .aggregation }
  | none => ofLabels [] .aggregation

/-- The result of an aggregation. Choosing series keeps them as they are, and counting values puts
the value into a label if it is named by a string. -/
def aggregated (op : Aggregator) (param : Option Expr) (grouping : Option Grouping)
    (inner : Survival) : Survival :=
  match op, param with
  | .topk, _ | .bottomk, _ => inner
  | .countValues, some (.string label) => (grouped grouping inner).allow label
  | _, _ => grouped grouping inner

/-- The many side of a match keeps its labels, and gains the labels of the match and those that it
takes over. -/
def manySide (many : Survival) (on taken : List String) : Survival :=
  if many.boundary = some .absent ∧ taken = [] then unknown
  else (on ++ taken).foldl allow many

/-- The result of an operation on matched series of two operands. -/
def matched (modifier : Modifier) (lhs rhs : Survival) : Survival :=
  let on := match modifier.matching with
    | some (.on labels) => labels
    | _ => []
  match modifier.group, modifier.matching with
  | some (.left taken), _ => manySide lhs on taken
  | some (.right taken), _ => manySide rhs on taken
  | none, some (.on labels) => ofLabels labels .aggregation
  | none, some (.ignoring _) =>
    -- the ignored labels may be gone or not; what both sides lack stays lacking
    { excluded := lhs.excluded.union rhs.excluded
      boundary := Boundary.merge lhs.boundary rhs.boundary }
  | none, none => lhs.combine rhs

/-- The result of an operation on two operands by their types. A scalar has no labels to give. -/
def operated (op : BinaryOp) (modifier : Modifier) (lhsType rhsType : ValueType)
    (lhs rhs : Survival) : Survival :=
  if lhsType = .scalar then (if rhsType = .scalar then unknown else rhs)
  else if rhsType = .scalar then lhs
  else match op with
    | .and => lhs
    | .or | .unless => lhs.combine rhs
    | _ => matched modifier lhs rhs

/-- The functions that yield a series where there is none. -/
def absentFunctions : List String := ["absent", "absent_over_time"]

/-- The result of a function, by the result of its first series. -/
def called (name : String) (args : List Expr) (inner : Survival) : Survival :=
  if name = "label_replace" ∨ name = "label_join" then
    match args with
    | _ :: .string label :: _ =>
      if inner.closed then inner.allow label
      else { inner with excluded := inner.excluded.erase label }
    | _ => inner
  else if name = "histogram_quantile" then inner.exclude "le"
  else inner

/-- The labels of the series for a selector without series: those that one equality alone names. -/
def absentSelector (s : Selector) : Survival :=
  let copied := fun m : Matcher ↦
    m.name ≠ metricLabel && (m.op matches .equal) && !m.value.isEmpty &&
      s.matchers.countP (·.name = m.name) = 1
  ofLabels ((s.matchers.filter copied).map (·.name)) .absent

/-- The labels of the series for an aggregation without series. -/
def absentGroups : Option Grouping → Survival
  | some (.by labels) => ofLabels labels .aggregation
  | _ => ofLabels [] .aggregation

end Survival

open Survival

mutual

/-- Which labels the series of an expression can have. -/
def survival : Expr → Survival
  | .number _ | .string _ | .selector .. | .range .. => unknown
  | .subquery e _ => survival e
  | .paren e => survival e
  | .neg e => survival e
  | .aggregate op param grouping e => aggregated op param grouping (survival e)
  | .binary op modifier lhs rhs =>
    operated op modifier lhs.type rhs.type (survival lhs) (survival rhs)
  | .call f args =>
    if absentFunctions.contains f.name then absenceOfFirst args
    else match survivalOfSeries args with
      | some inner => called f.name args inner
      | none => unknown

/-- Which labels the first series among some arguments can have. -/
def survivalOfSeries : List Expr → Option Survival
  | [] => none
  | e :: es => if e.type.isSeries then some (survival e) else survivalOfSeries es

/-- Which labels a series can have that stands for the absence of an expression. -/
def absence : Expr → Survival
  | .selector s _ | .range s _ => absentSelector s
  | .paren e => absence e
  | .aggregate _ _ grouping _ => absentGroups grouping
  | .binary op modifier lhs rhs =>
    operated op modifier lhs.type rhs.type (survival lhs) (survival rhs)
  | _ => ofLabels [] .absent

/-- Which labels a series can have that stands for the absence of the first argument. -/
def absenceOfFirst : List Expr → Survival
  | [] => ofLabels [] .absent
  | e :: _ => absence e

end

/-- Which labels the series of a query can have; `none` if the query is rejected. -/
def survivalOfQuery? (query : String) : Option Survival := (Expr.ofText? query).map survival

end AlertAudit.Labels
