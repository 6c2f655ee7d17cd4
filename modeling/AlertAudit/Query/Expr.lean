import AlertAudit.Decimal.Binary64
import AlertAudit.Query.Function
import AlertAudit.Query.Pattern

/-!
Query expressions. An expression has a type; the functions whose names end in a question mark
build expressions and refuse what is ill-typed or otherwise not allowed.
-/

set_option autoImplicit false

namespace AlertAudit.Query

open AlertAudit.Decimal

/-- How a matcher compares the value of a label. -/
inductive MatchOp where
  | equal | notEqual
  | regex (pattern : Pattern)
  | notRegex (pattern : Pattern)
  deriving Repr

/-- A condition on one label. -/
structure Matcher where
  name : String
  op : MatchOp
  value : String
  deriving Repr

/-- Whether a series without the label satisfies the matcher. -/
def Matcher.allowsAbsent (m : Matcher) : Bool :=
  match m.op with
  | .equal => m.value.isEmpty
  | .notEqual => !m.value.isEmpty
  | .regex p => p.matchesEmpty
  | .notRegex p => !p.matchesEmpty

/-- The label that holds the name of a metric. -/
def metricLabel : String := "__name__"

/-- Series of a metric, by their labels. Once alternatives are given, `matchers` is empty and they
hold all matchers. -/
structure Selector where
  metric : Option String
  matchers : List Matcher := []
  alternatives : List (List Matcher) := []
  deriving Repr

/-- A shift of the time of evaluation: at most one offset and at most one fixed time. -/
structure Shift where
  offset : Bool := false
  fixed : Bool := false
  deriving DecidableEq, Repr

/-- Operators that turn many series into few. -/
inductive Aggregator where
  | sum | avg | count | min | max | group | stddev | stdvar
  | topk | bottomk | countValues | quantile
  deriving DecidableEq, Repr

/-- The labels that an aggregation keeps or drops. -/
inductive Grouping where
  | by (labels : List String)
  | without (labels : List String)
  deriving DecidableEq, Repr

/-- Operators between two expressions. -/
inductive BinaryOp where
  | or | and | unless
  | eq | ne | lt | le | gt | ge
  | add | sub
  | mul | div | mod | atan2
  | pow
  deriving DecidableEq, Repr

/-- The labels by which series of two operands are matched. -/
inductive Matching where
  | on (labels : List String)
  | ignoring (labels : List String)
  deriving DecidableEq, Repr

/-- The side of a match on which several series may share a partner, and the labels they take
over from it. -/
inductive Group where
  | left (taken : List String)
  | right (taken : List String)
  deriving DecidableEq, Repr

/-- How the series of two operands are matched. -/
structure Modifier where
  returnBool : Bool := false
  matching : Option Matching := none
  group : Option Group := none
  deriving DecidableEq, Repr

/-- A query expression. -/
inductive Expr where
  | number (value : Binary64)
  | string (text : String)
  | selector (selector : Selector) (shift : Shift)
  | range (selector : Selector) (shift : Shift)
  | subquery (body : Expr) (shift : Shift)
  | paren (body : Expr)
  | neg (body : Expr)
  | aggregate (op : Aggregator) (param : Option Expr) (grouping : Option Grouping) (body : Expr)
  | binary (op : BinaryOp) (modifier : Modifier) (lhs rhs : Expr)
  | call (function : Function) (args : List Expr)

namespace BinaryOp

def isComparison : BinaryOp → Bool
  | .eq | .ne | .lt | .le | .gt | .ge => true
  | _ => false

/-- Operations on sets of series. -/
def isSet : BinaryOp → Bool
  | .or | .and | .unless => true
  | _ => false

/-- How tightly an operator binds. -/
def precedence : BinaryOp → Nat
  | .or => 1
  | .and | .unless => 2
  | .eq | .ne | .lt | .le | .gt | .ge => 3
  | .add | .sub => 4
  | .mul | .div | .mod | .atan2 => 5
  | .pow => 6

/-- Operators that group to the right. -/
def isRightAssoc : BinaryOp → Bool
  | .pow => true
  | _ => false

end BinaryOp

namespace Aggregator

/-- The type of the parameter of an aggregation that has one. -/
def param? : Aggregator → Option ValueType
  | .topk | .bottomk | .quantile => some .scalar
  | .countValues => some .string
  | _ => none

end Aggregator

namespace Matching

def labels : Matching → List String
  | on labels => labels
  | ignoring labels => labels

end Matching

namespace Group

/-- The labels that the many side takes over. -/
def labels : Group → List String
  | left labels => labels
  | right labels => labels

end Group

namespace Expr

/-- What an expression evaluates to. -/
def type : Expr → ValueType
  | number _ => .scalar
  | string _ => .string
  | selector .. => .vector
  | range .. => .matrix
  | subquery .. => .matrix
  | paren body => body.type
  | neg body => body.type
  | aggregate .. => .vector
  | binary _ _ lhs rhs => if lhs.type = .scalar ∧ rhs.type = .scalar then .scalar else .vector
  | call f _ => f.result

/-- A selector needs a metric or a matcher that some series fail, and names the metric once. -/
def selector? (s : Selector) : Option Expr :=
  let all := s.matchers ++ s.alternatives.flatten
  let ok := match s.metric with
    | some _ => all.all (·.name ≠ metricLabel)
    | none => all.any (!·.allowsAbsent)
  if ok then some (.selector s {}) else none

/-- A range of samples of a selector that is not shifted. -/
def range? : Expr → Option Expr
  | selector s shift => if shift = {} then some (.range s {}) else none
  | _ => none

/-- Repeated evaluation of a vector. -/
def subquery? (e : Expr) : Option Expr := if e.type = .vector then some (.subquery e {}) else none

/-- The expression with its shift changed; others than selectors and subqueries have none. -/
def shift? (f : Shift → Option Shift) : Expr → Option Expr
  | selector s shift => (f shift).map (.selector s)
  | range s shift => (f shift).map (.range s)
  | subquery e shift => (f shift).map (.subquery e)
  | _ => none

/-- The expression evaluated at another time. -/
def offset? : Expr → Option Expr :=
  shift? fun s ↦ if s.offset then none else some { s with offset := true }

/-- The expression evaluated at a fixed time. -/
def at? : Expr → Option Expr :=
  shift? fun s ↦ if s.fixed then none else some { s with fixed := true }

/-- The negated expression. The sign of a number belongs to the number. -/
def neg? : Expr → Option Expr
  | number v => some (.number v.neg)
  | e => if e.type = .scalar ∨ e.type = .vector then some (.neg e) else none

/-- An aggregation over its arguments, the last of which is the vector. -/
def aggregate? (op : Aggregator) (grouping : Option Grouping) (args : List Expr) : Option Expr :=
  match op.param?, args with
  | none, [e] => if e.type = .vector then some (.aggregate op none grouping e) else none
  | some t, [param, e] =>
    if param.type = t ∧ e.type = .vector then some (.aggregate op (some param) grouping e) else none
  | _, _ => none

/-- What is allowed between two operands. -/
def binaryAllowed (op : BinaryOp) (m : Modifier) (lhs rhs : ValueType) : Bool :=
  let isOperand := fun t ↦ t = ValueType.scalar || t = ValueType.vector
  let bothScalar := lhs = .scalar && rhs = .scalar
  let bothVector := lhs = .vector && rhs = .vector
  let matched := (m.matching.map Matching.labels).getD []
  let shared := match m.matching, m.group with
    | some (.on labels), some g => labels.any g.labels.contains
    | _, _ => false
  isOperand lhs && isOperand rhs &&
    (!m.returnBool || op.isComparison) &&
    (!(op.isComparison && bothScalar) || m.returnBool) &&
    !shared &&
    (!op.isSet || (bothVector && m.group.isNone)) &&
    (bothVector || matched.isEmpty)

def binary? (op : BinaryOp) (m : Modifier) (lhs rhs : Expr) : Option Expr :=
  if binaryAllowed op m lhs.type rhs.type then some (.binary op m lhs rhs) else none

/-- Functions of a number that are accepted although a vector is asked for: the exponential of a
number that is not finite, and logarithms of numbers that have none. -/
def acceptsNumber (name : String) (v : Binary64) : Bool :=
  if name = "exp" then !v.isFinite
  else if name = "ln" || name = "log2" || name = "log10" then !v.isFinite || !v.isPositive
  else false

/-- A call of a function by name. -/
def call? (name : String) (args : List Expr) : Option Expr := do
  let f ← Function.find? name
  guard (f.takes args.length)
  let exempt := match args with
    | .number v :: _ => acceptsNumber name v
    | _ => false
  guard (exempt || args.zipIdx.all fun a ↦ f.param? a.2 = some a.1.type)
  return .call f args

end Expr

end AlertAudit.Query
