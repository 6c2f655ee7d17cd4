import AlertAudit.Query.Expr

/-!
Places in expressions. A frame is an operator with all its operands but one, and a list of frames,
from the inside to the outside, is an expression with a hole, which `fill` closes.
-/

set_option autoImplicit false

namespace AlertAudit.Query

/-- An operator with a hole in the place of one operand. -/
inductive Frame where
  | subquery (shift : Shift)
  | paren
  | neg
  | param (op : Aggregator) (grouping : Option Grouping) (vector : Expr)
  | body (op : Aggregator) (parameter : Option Expr) (grouping : Option Grouping)
  | lhs (op : BinaryOp) (modifier : Modifier) (other : Expr)
  | rhs (op : BinaryOp) (modifier : Modifier) (other : Expr)
  | arg (function : Function) (before after : List Expr)

/-- The operator with an expression in its hole. -/
def Frame.fill (e : Expr) : Frame → Expr
  | subquery shift => .subquery e shift
  | paren => .paren e
  | neg => .neg e
  | param op grouping vector => .aggregate op (some e) grouping vector
  | body op parameter grouping => .aggregate op parameter grouping e
  | lhs op m other => .binary op m e other
  | rhs op m other => .binary op m other e
  | arg f before after => .call f (before ++ e :: after)

/-- The expression with a hole, the innermost frame first, and another one in the hole. -/
def fill (e : Expr) : List Frame → Expr
  | [] => e
  | frame :: context => fill (frame.fill e) context

end AlertAudit.Query
