import AlertAudit.Labels.Flow
import AlertAudit.Proofs.Query.Typing
import Mathlib.Data.List.Forall2
import Mathlib.Data.Set.Basic

/-!
The labels that series of a query carry, by the rules of the query language. `Yields e S` says that
`e` can have an output series whose labels are exactly `S`. A selector's series may have any
labels, and every operator says what it makes of the labels of a series of its operands, so
nothing here knows of kept or excluded labels: this is what the analysis of a query is measured
against.

An `or` hands on the series of either side. Which side a series comes from is settled beforehand:
`Resolves e e'` says that `e'` is `e` with each `or` replaced by one of its operands.
-/

set_option autoImplicit false

namespace AlertAudit.Labels

open AlertAudit.Query

/-- The labels of a group, by those of a series in it. -/
def groupLabels : Option Grouping → Set String → Set String
  | some (.by labels), S => S ∩ {l | l ∈ labels}
  | some (.without labels), S => S \ {l | l ∈ labels}
  | none, _ => ∅

/-- Operators and functions may take the name of the metric away, and leave all other labels. -/
def MaybeUnnamed (S S' : Set String) : Prop := S' = S ∨ S' = S \ {metricLabel}

/-- The labels that two series must have in common to match, when some are ignored. The name of
the metric never counts. -/
def AgreeWithout (ignored : List String) (S T : Set String) : Prop :=
  ∀ l, l ≠ metricLabel → l ∉ ignored → (l ∈ S ↔ l ∈ T)

/-- The labels that a match does not look at. -/
def ignoredLabels : Option Matching → List String
  | some (.ignoring labels) => labels
  | _ => []

/-- The label that an expression names: strings stand for themselves, also in parentheses. -/
inductive Names : Expr → String → Prop
  | string {label : String} : Names (.string label) label
  | paren {e : Expr} {label : String} : Names e label → Names (.paren e) label

/-- The labels whose value a selector pins down: the one condition on such a label is that it
equals some text. -/
def pinnedLabels (s : Selector) : Set String :=
  {l | l ≠ metricLabel ∧
    ∃ m, s.matchers.filter (·.name = l) = [m] ∧ m.op = .equal ∧ m.value ≠ ""}

/-- The selector that an expression is, also in parentheses. -/
def selectorOf? : Expr → Option Selector
  | .selector s _ | .range s _ => some s
  | .paren e => selectorOf? e
  | _ => none

/-- The labels of the series that stands for the absence of an expression. -/
def absenceLabels (e : Expr) : Set String := (selectorOf? e).elim ∅ pinnedLabels

/-- The argument whose series a function works on. -/
def seriesArg? (args : List Expr) : Option Expr := args.find? (·.type.isSeries)

def relabelFunctions : List String := ["label_replace", "label_join"]

/-- `Yields e S`: an output series of `e` can have exactly the labels `S`. -/
inductive Yields : Expr → Set String → Prop
  | selector {s : Selector} {shift : Shift} {S : Set String} : Yields (.selector s shift) S
  | range {s : Selector} {shift : Shift} {S : Set String} : Yields (.range s shift) S
  | subquery {e : Expr} {shift : Shift} {S : Set String} :
    Yields e S → Yields (.subquery e shift) S
  | paren {e : Expr} {S : Set String} : Yields e S → Yields (.paren e) S
  | neg {e : Expr} {S S' : Set String} : Yields e S → MaybeUnnamed S S' → Yields (.neg e) S'
  /-- Choosing series leaves them as they are. -/
  | chosen {op : Aggregator} {param : Option Expr} {grouping : Option Grouping} {e : Expr}
    {S : Set String} : op = .topk ∨ op = .bottomk → Yields e S →
    Yields (.aggregate op param grouping e) S
  | grouped {op : Aggregator} {param : Option Expr} {grouping : Option Grouping} {e : Expr}
    {S : Set String} : op ≠ .topk → op ≠ .bottomk → op ≠ .countValues → Yields e S →
    Yields (.aggregate op param grouping e) (groupLabels grouping S)
  /-- Counting values puts the value into a label of its own. -/
  | counted {param : Expr} {grouping : Option Grouping} {e : Expr} {S : Set String}
    {label : String} : Names param label → Yields e S →
    Yields (.aggregate .countValues (some param) grouping e)
      (insert label (groupLabels grouping S))
  | scalarLeft {op : BinaryOp} {m : Modifier} {lhs rhs : Expr} {S S' : Set String} :
    lhs.type = .scalar → Yields rhs S → MaybeUnnamed S S' → Yields (.binary op m lhs rhs) S'
  | scalarRight {op : BinaryOp} {m : Modifier} {lhs rhs : Expr} {S S' : Set String} :
    rhs.type = .scalar → Yields lhs S → MaybeUnnamed S S' → Yields (.binary op m lhs rhs) S'
  | andLeft {m : Modifier} {lhs rhs : Expr} {S : Set String} :
    lhs.type ≠ .scalar → rhs.type ≠ .scalar → Yields lhs S → Yields (.binary .and m lhs rhs) S
  | unlessLeft {m : Modifier} {lhs rhs : Expr} {S : Set String} :
    lhs.type ≠ .scalar → rhs.type ≠ .scalar → Yields lhs S →
    Yields (.binary .unless m lhs rhs) S
  | orLeft {m : Modifier} {lhs rhs : Expr} {S : Set String} :
    lhs.type ≠ .scalar → rhs.type ≠ .scalar → Yields lhs S → Yields (.binary .or m lhs rhs) S
  | orRight {m : Modifier} {lhs rhs : Expr} {S : Set String} :
    lhs.type ≠ .scalar → rhs.type ≠ .scalar → Yields rhs S → Yields (.binary .or m lhs rhs) S
  | matchedOn {op : BinaryOp} {m : Modifier} {lhs rhs : Expr} {S S' : Set String}
    {labels : List String} : lhs.type ≠ .scalar → rhs.type ≠ .scalar → op.isSet = false →
    m.group = none → m.matching = some (.on labels) → Yields lhs S →
    MaybeUnnamed (S ∩ {l | l ∈ labels}) S' → Yields (.binary op m lhs rhs) S'
  /-- Without `on`, both series have the same labels up to the ignored ones. -/
  | matched {op : BinaryOp} {m : Modifier} {lhs rhs : Expr} {S T S' : Set String} :
    lhs.type ≠ .scalar → rhs.type ≠ .scalar → op.isSet = false → m.group = none →
    (∀ labels, m.matching ≠ some (.on labels)) → Yields lhs S → Yields rhs T →
    AgreeWithout (ignoredLabels m.matching) S T →
    MaybeUnnamed (S \ {l | l ∈ ignoredLabels m.matching}) S' → Yields (.binary op m lhs rhs) S'
  /-- Labels taken over from the one side are there or gone as they are on that side. -/
  | groupLeft {op : BinaryOp} {m : Modifier} {lhs rhs : Expr} {S S' : Set String}
    {taken : List String} : lhs.type ≠ .scalar → rhs.type ≠ .scalar → op.isSet = false →
    m.group = some (.left taken) → Yields lhs S →
    (S \ {l | l ∈ taken}) \ {metricLabel} ⊆ S' → S' ⊆ S ∪ {l | l ∈ taken} →
    Yields (.binary op m lhs rhs) S'
  | groupRight {op : BinaryOp} {m : Modifier} {lhs rhs : Expr} {S S' : Set String}
    {taken : List String} : lhs.type ≠ .scalar → rhs.type ≠ .scalar → op.isSet = false →
    m.group = some (.right taken) → Yields rhs S →
    (S \ {l | l ∈ taken}) \ {metricLabel} ⊆ S' → S' ⊆ S ∪ {l | l ∈ taken} →
    Yields (.binary op m lhs rhs) S'
  /-- The made-up series of a query for absent series. -/
  | absent {f : Function} {e : Expr} {args : List Expr} :
    f.name ∈ Survival.absentFunctions → Yields (.call f (e :: args)) (absenceLabels e)
  /-- The label that is written is there, or gone if its new value is empty. -/
  | relabelled {f : Function} {args : List Expr} {e target : Expr} {label : String}
    {S S' : Set String} : f.name ∈ relabelFunctions → seriesArg? args = some e →
    args[1]? = some target → Names target label → Yields e S →
    S' = insert label S ∨ S' = S \ {label} → Yields (.call f args) S'
  | quantile {f : Function} {args : List Expr} {e : Expr} {S S' : Set String} :
    f.name = "histogram_quantile" → seriesArg? args = some e → Yields e S →
    MaybeUnnamed (S \ {"le"}) S' → Yields (.call f args) S'
  /-- Other functions work on the values of their series. -/
  | called {f : Function} {args : List Expr} {e : Expr} {S S' : Set String} :
    f.name ∉ Survival.absentFunctions → f.name ∉ relabelFunctions →
    f.name ≠ "histogram_quantile" → seriesArg? args = some e → Yields e S →
    MaybeUnnamed S S' → Yields (.call f args) S'
  /-- A vector made of a number has no labels. -/
  | fromScalar {f : Function} {args : List Expr} :
    f.name ∉ Survival.absentFunctions → seriesArg? args = none → Yields (.call f args) ∅

/-- `Resolves e e'`: `e'` is `e` with each `or` replaced by one of its operands. -/
inductive Resolves : Expr → Expr → Prop
  | number {v : Decimal.Binary64} : Resolves (.number v) (.number v)
  | string {s : String} : Resolves (.string s) (.string s)
  | selector {s : Selector} {shift : Shift} : Resolves (.selector s shift) (.selector s shift)
  | range {s : Selector} {shift : Shift} : Resolves (.range s shift) (.range s shift)
  | subquery {e e' : Expr} {shift : Shift} :
    Resolves e e' → Resolves (.subquery e shift) (.subquery e' shift)
  | paren {e e' : Expr} : Resolves e e' → Resolves (.paren e) (.paren e')
  | neg {e e' : Expr} : Resolves e e' → Resolves (.neg e) (.neg e')
  | aggregate {op : Aggregator} {param param' : Option Expr} {grouping : Option Grouping}
    {e e' : Expr} : Option.Rel Resolves param param' → Resolves e e' →
    Resolves (.aggregate op param grouping e) (.aggregate op param' grouping e')
  | binary {op : BinaryOp} {m : Modifier} {lhs lhs' rhs rhs' : Expr} : op ≠ .or →
    Resolves lhs lhs' → Resolves rhs rhs' → Resolves (.binary op m lhs rhs) (.binary op m lhs' rhs')
  | orLeft {m : Modifier} {lhs lhs' rhs : Expr} :
    Resolves lhs lhs' → Resolves (.binary .or m lhs rhs) lhs'
  | orRight {m : Modifier} {lhs rhs rhs' : Expr} :
    Resolves rhs rhs' → Resolves (.binary .or m lhs rhs) rhs'
  | call {f : Function} {args args' : List Expr} : List.Forall₂ Resolves args args' →
    Resolves (.call f args) (.call f args')

end AlertAudit.Labels
