/-!
A class of characters given by a table of code point ranges, both ends included. The tables of
this library list their ranges in ascending order.
-/

set_option autoImplicit false

namespace AlertAudit.Text

/-- Membership of a character in a table of code point ranges. -/
def inRanges (table : List (Nat × Nat)) (c : Char) : Bool :=
  table.any fun r ↦ r.1 ≤ c.toNat && c.toNat ≤ r.2

end AlertAudit.Text
