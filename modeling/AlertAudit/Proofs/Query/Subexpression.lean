import AlertAudit.Query.Expr
import Mathlib.Logic.Relation

/-!
Expressions by their parts. `Child` relates an expression to its immediate parts, `Within` to all
of them and to itself, so "the query contains no `unless`" is a statement about every expression
within it. Arguments and parameters stand in lists and options; `Expr.inductionOn` is induction
with a hypothesis for each of them.
-/

set_option autoImplicit false

namespace AlertAudit.Query.Expr

open AlertAudit.Decimal

/-- `Child c e`: `c` is an immediate part of `e`. -/
inductive Child : Expr → Expr → Prop
  | subquery {e : Expr} {shift : Shift} : Child e (.subquery e shift)
  | paren {e : Expr} : Child e (.paren e)
  | neg {e : Expr} : Child e (.neg e)
  | param {op : Aggregator} {p e : Expr} {grouping : Option Grouping} :
    Child p (.aggregate op (some p) grouping e)
  | body {op : Aggregator} {param : Option Expr} {grouping : Option Grouping} {e : Expr} :
    Child e (.aggregate op param grouping e)
  | lhs {op : BinaryOp} {m : Modifier} {lhs rhs : Expr} : Child lhs (.binary op m lhs rhs)
  | rhs {op : BinaryOp} {m : Modifier} {lhs rhs : Expr} : Child rhs (.binary op m lhs rhs)
  | arg {f : Function} {args : List Expr} {a : Expr} : a ∈ args → Child a (.call f args)

/-- `Within c e`: `c` occurs in `e`, as the whole of it or as a part at any depth. -/
def Within : Expr → Expr → Prop := Relation.ReflTransGen Child

/-- What holds within an expression holds within its parts. -/
theorem within_of_child {p : Expr → Prop} {c e : Expr} (hall : ∀ x, Within x e → p x)
    (hchild : Child c e) : ∀ x, Within x c → p x :=
  fun x hx ↦ hall x (Relation.ReflTransGen.tail hx hchild)

/-- What holds of an expression and within all its parts holds within it. -/
theorem within_of_children {p : Expr → Prop} {e : Expr} (hself : p e)
    (hparts : ∀ c, Child c e → ∀ x, Within x c → p x) : ∀ x, Within x e → p x := by
  intro x hx
  rcases Relation.ReflTransGen.cases_tail hx with rfl | ⟨c, hwithin, hchild⟩
  · exact hself
  · exact hparts c hchild x hwithin

/-- Induction on an expression, with a hypothesis for every parameter and argument. -/
theorem inductionOn {motive : Expr → Prop} (e : Expr)
    (number : ∀ v, motive (.number v)) (string : ∀ s, motive (.string s))
    (selector : ∀ s shift, motive (.selector s shift))
    (range : ∀ s shift, motive (.range s shift))
    (subquery : ∀ e shift, motive e → motive (.subquery e shift))
    (paren : ∀ e, motive e → motive (.paren e)) (neg : ∀ e, motive e → motive (.neg e))
    (aggregate : ∀ op param grouping e, (∀ p ∈ param, motive p) → motive e →
      motive (.aggregate op param grouping e))
    (binary : ∀ op m lhs rhs, motive lhs → motive rhs → motive (.binary op m lhs rhs))
    (call : ∀ f args, (∀ a ∈ args, motive a) → motive (.call f args)) : motive e := by
  refine @Expr.rec motive (fun param ↦ ∀ p ∈ param, motive p) (fun args ↦ ∀ a ∈ args, motive a)
    number string selector range (fun e shift ↦ subquery e shift) paren neg
    (fun op param grouping e ↦ aggregate op param grouping e)
    (fun op m lhs rhs ↦ binary op m lhs rhs) (fun f args ↦ call f args) ?_ ?_ ?_ ?_ e
  · simp
  · intro p hp q hq
    obtain rfl : p = q := by simpa using hq
    exact hp
  · simp
  · intro a args ha hargs b hb
    rcases List.mem_cons.mp hb with rfl | hb
    · exact ha
    · exact hargs b hb

end AlertAudit.Query.Expr
