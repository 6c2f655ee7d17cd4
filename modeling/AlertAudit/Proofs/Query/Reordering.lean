import AlertAudit.Query.Expr
import Mathlib.Data.List.Forall2

/-!
Expressions that differ only in the order in which they are written. `Reordered e e'` says that `e'`
is `e` where, at any number of places, the operands of an operation change sides, the labels of a
list or the matchers of a selector change places, and labels are repeated or no longer repeated.
Operands change sides in all operations but `and` and `unless`, and with them the side of a match
on which several series may share a partner.
-/

set_option autoImplicit false

namespace AlertAudit.Query

open AlertAudit.Decimal

/-- The lists name the same labels, in any order and any number of times. -/
def SameLabels (ls ms : List String) : Prop := ∀ l, l ∈ ls ↔ l ∈ ms

/-- The matchers in another order. The name of the metric has no place among them. -/
structure Selector.Reordered (s s' : Selector) : Prop where
  metric : s.metric = s'.metric
  matchers : s.matchers.Perm s'.matchers
  alternatives : s.alternatives.flatten.Perm s'.alternatives.flatten

inductive Grouping.Reordered : Grouping → Grouping → Prop
  | byLabels {ls ms : List String} : SameLabels ls ms → Reordered (.by ls) (.by ms)
  | withoutLabels {ls ms : List String} : SameLabels ls ms → Reordered (.without ls) (.without ms)

inductive Matching.Reordered : Matching → Matching → Prop
  | on {ls ms : List String} : SameLabels ls ms → Reordered (.on ls) (.on ms)
  | ignoring {ls ms : List String} : SameLabels ls ms → Reordered (.ignoring ls) (.ignoring ms)

inductive Group.Reordered : Group → Group → Prop
  | left {ls ms : List String} : SameLabels ls ms → Reordered (.left ls) (.left ms)
  | right {ls ms : List String} : SameLabels ls ms → Reordered (.right ls) (.right ms)

structure Modifier.Reordered (m m' : Modifier) : Prop where
  returnBool : m.returnBool = m'.returnBool
  matching : Option.Rel Matching.Reordered m.matching m'.matching
  group : Option.Rel Group.Reordered m.group m'.group

def Group.swap : Group → Group
  | left taken => right taken
  | right taken => left taken

/-- The match of operands that change sides. -/
def Modifier.swap (m : Modifier) : Modifier := { m with group := m.group.map Group.swap }

/-- `Reordered e e'`: `e'` is `e` written in another order. -/
inductive Expr.Reordered : Expr → Expr → Prop
  | number {v : Binary64} : Reordered (.number v) (.number v)
  | string {text : String} : Reordered (.string text) (.string text)
  | selector {s s' : Selector} {shift : Shift} : s.Reordered s' →
    Reordered (.selector s shift) (.selector s' shift)
  | range {s s' : Selector} {shift : Shift} : s.Reordered s' →
    Reordered (.range s shift) (.range s' shift)
  | subquery {e e' : Expr} {shift : Shift} : Reordered e e' →
    Reordered (.subquery e shift) (.subquery e' shift)
  | paren {e e' : Expr} : Reordered e e' → Reordered (.paren e) (.paren e')
  | neg {e e' : Expr} : Reordered e e' → Reordered (.neg e) (.neg e')
  | aggregate {op : Aggregator} {param param' : Option Expr}
    {grouping grouping' : Option Grouping} {e e' : Expr} : Option.Rel Reordered param param' →
    Option.Rel Grouping.Reordered grouping grouping' → Reordered e e' →
    Reordered (.aggregate op param grouping e) (.aggregate op param' grouping' e')
  | binary {op : BinaryOp} {m m' : Modifier} {lhs lhs' rhs rhs' : Expr} : m.Reordered m' →
    Reordered lhs lhs' → Reordered rhs rhs' →
    Reordered (.binary op m lhs rhs) (.binary op m' lhs' rhs')
  | swap {op : BinaryOp} {m m' : Modifier} {lhs lhs' rhs rhs' : Expr} : op ≠ .and → op ≠ .unless →
    m.Reordered m' → Reordered lhs lhs' → Reordered rhs rhs' →
    Reordered (.binary op m lhs rhs) (.binary op m'.swap rhs' lhs')
  | call {f : Function} {args args' : List Expr} : List.Forall₂ Reordered args args' →
    Reordered (.call f args) (.call f args')

end AlertAudit.Query
