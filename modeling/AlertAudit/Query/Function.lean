/-!
The types of query expressions, and the functions that a query may call. Three shapes of
parameter lists occur: fixed ones, ones whose last parameter may be left out, and ones whose last
parameter may be repeated or left out.
-/

set_option autoImplicit false

namespace AlertAudit.Query

/-- What a query expression evaluates to. -/
inductive ValueType where
  | scalar
  /-- Series with one sample each. -/
  | vector
  /-- Series with a range of samples each. -/
  | matrix
  | string
  deriving DecidableEq, Repr

/-- Series, be it with one sample or a range of them. -/
def ValueType.isSeries : ValueType → Bool
  | .vector | .matrix => true
  | .scalar | .string => false

/-- What may happen to the last parameter of a function. -/
inductive Last where
  | required | optional | repeated
  deriving DecidableEq, Repr

/-- The name and the types of a function. -/
structure Function where
  name : String
  params : List ValueType
  last : Last := .required
  result : ValueType := .vector
  deriving DecidableEq, Repr

namespace Function

/-- Whether a function takes this number of arguments. -/
def takes (f : Function) (count : Nat) : Bool :=
  match f.last with
  | .required => count = f.params.length
  | .optional => f.params.length - 1 ≤ count && count ≤ f.params.length
  | .repeated => f.params.length - 1 ≤ count

/-- The type of the parameter at a position; further ones are like the last. -/
def param? (f : Function) (i : Nat) : Option ValueType := f.params[min i (f.params.length - 1)]?

def ofVector : List String :=
  ["abs", "absent", "acos", "acosh", "asin", "asinh", "atan", "atanh", "ceil", "cos", "cosh",
    "deg", "exp", "floor", "histogram_count", "histogram_sum", "ln", "log10", "log2", "rad", "sgn",
    "sin", "sinh", "sort", "sort_desc", "sqrt", "tan", "tanh", "timestamp"]

/-- Functions of one range of samples. -/
def ofMatrix : List String :=
  ["absent_over_time", "avg_over_time", "changes", "count_over_time", "delta", "deriv", "idelta",
    "increase", "irate", "last_over_time", "max_over_time", "min_over_time", "present_over_time",
    "rate", "resets", "stddev_over_time", "stdvar_over_time", "sum_over_time"]

/-- Functions of the time, by default the time of evaluation. -/
def ofTime : List String :=
  ["day_of_month", "day_of_week", "day_of_year", "days_in_month", "hour", "minute", "month", "year"]

def all : List Function :=
  ofVector.map (fun name ↦ { name, params := [.vector] }) ++
  ofMatrix.map (fun name ↦ { name, params := [.matrix] }) ++
  ofTime.map (fun name ↦ { name, params := [.vector], last := .optional }) ++
  [{ name := "clamp", params := [.vector, .scalar, .scalar] },
    { name := "clamp_max", params := [.vector, .scalar] },
    { name := "clamp_min", params := [.vector, .scalar] },
    { name := "histogram_fraction", params := [.scalar, .scalar, .vector] },
    { name := "histogram_quantile", params := [.scalar, .vector] },
    { name := "holt_winters", params := [.matrix, .scalar, .scalar] },
    { name := "label_replace", params := [.vector, .string, .string, .string, .string] },
    { name := "label_join", params := [.vector, .string, .string, .string], last := .repeated },
    { name := "pi", params := [], result := .scalar },
    { name := "time", params := [], result := .scalar },
    { name := "predict_linear", params := [.matrix, .scalar] },
    { name := "quantile_over_time", params := [.scalar, .matrix] },
    { name := "round", params := [.vector, .scalar], last := .optional },
    { name := "scalar", params := [.vector], result := .scalar },
    { name := "sort_by_label", params := [.vector, .string, .string], last := .repeated },
    { name := "sort_by_label_desc", params := [.vector, .string, .string], last := .repeated },
    { name := "vector", params := [.scalar] }]

def find? (name : String) : Option Function := all.find? (·.name = name)

end Function

end AlertAudit.Query
