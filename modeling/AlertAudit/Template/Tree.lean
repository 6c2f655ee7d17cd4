import AlertAudit.Template.Token

/-!
Trees over the tokens of a template. The leaves of a tree in order are all tokens it was built
from, white space included, so a tree loses nothing of its text.
-/

set_option autoImplicit false

namespace AlertAudit.Template

open AlertAudit.Text

/-- A token, or a group of trees. -/
inductive Tree where
  | leaf (token : Token)
  | node (kind : NodeKind) (children : List Tree)

namespace Tree

mutual

/-- The tokens of a tree in order. -/
def leaves : Tree → List Token
  | leaf t => [t]
  | node _ children => leavesOf children

/-- The tokens of several trees in order. -/
def leavesOf : List Tree → List Token
  | [] => []
  | t :: ts => t.leaves ++ leavesOf ts

end

mutual

def first? : Tree → Option Token
  | leaf t => some t
  | node _ children => firstOf? children

def firstOf? : List Tree → Option Token
  | [] => none
  | t :: ts =>
    match t.first? with
    | some token => some token
    | none => firstOf? ts

end

mutual

def last? : Tree → Option Token
  | leaf t => some t
  | node _ children => lastOf? children

def lastOf? : List Tree → Option Token
  | [] => none
  | t :: ts =>
    match lastOf? ts with
    | some token => some token
    | none => t.last?

end

/-- The bytes from the first to the last token; `none` for a tree without tokens. -/
def span? (t : Tree) : Option Span := do
  let first ← t.first?
  let last ← t.last?
  return ⟨first.start, last.stop⟩

end Tree

end AlertAudit.Template
