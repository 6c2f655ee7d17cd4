import AlertAudit.Template.Tree
import Mathlib.Logic.Relation

/-!
Trees by their parts. `Within` relates a tree to all the trees in it, so "there is no error node
below this one" is a statement about every tree within it.
-/

set_option autoImplicit false

namespace AlertAudit.Template

/-- The kinds of nodes that stand for an operand. -/
def NodeKind.isOperand : NodeKind → Bool
  | .dot | .field | .variable | .function | .paren | .literal => true
  | _ => false

/-- The kinds of nodes that only frame a template: the whole of it, and what could not be
parsed. -/
def NodeKind.isFrame : NodeKind → Bool
  | .root | .error => true
  | _ => false

namespace Tree

/-- `Child c t`: `c` stands directly in the node `t`. -/
inductive Child : Tree → Tree → Prop
  | mem {kind : NodeKind} {children : List Tree} {c : Tree} : c ∈ children →
    Child c (.node kind children)

/-- `Within c t`: `c` occurs in `t`, as the whole of it or at any depth. -/
def Within : Tree → Tree → Prop := Relation.ReflTransGen Child

/-- A token, or a node that is no frame and, if it stands for an operand, has a token. -/
def Regular : Tree → Prop
  | leaf _ => True
  | node kind children => kind.isFrame = false ∧ (kind.isOperand → leavesOf children ≠ [])

def Plain (t : Tree) : Prop := ∀ c, Within c t → c.Regular

theorem plain_leaf (t : Token) : (leaf t).Plain := by
  intro c hwithin
  rcases Relation.ReflTransGen.cases_tail hwithin with rfl | ⟨_, _, hchild⟩
  · trivial
  · cases hchild

/-- A node is plain if it is regular and its children are plain. -/
theorem plain_node {kind : NodeKind} {children : List Tree}
    (hself : (node kind children).Regular) (hchildren : ∀ c ∈ children, c.Plain) :
    (node kind children).Plain := by
  intro x hwithin
  rcases Relation.ReflTransGen.cases_tail hwithin with rfl | ⟨c, hc, hchild⟩
  · exact hself
  · cases hchild with
    | mem hmem => exact hchildren c hmem x hc

/-- The children of a plain node are plain. -/
theorem Plain.of_mem {kind : NodeKind} {children : List Tree} {c : Tree}
    (h : (node kind children).Plain) (hmem : c ∈ children) : c.Plain :=
  fun x hx ↦ h x (Relation.ReflTransGen.tail hx (.mem hmem))

/-- A plain tree is regular itself. -/
theorem Plain.regular {t : Tree} (h : t.Plain) : t.Regular := h t Relation.ReflTransGen.refl

@[simp]
theorem leaves_leaf (t : Token) : (leaf t).leaves = [t] := by rw [leaves]

@[simp]
theorem leaves_node (kind : NodeKind) (children : List Tree) :
    (node kind children).leaves = leavesOf children := by rw [leaves]

@[simp]
theorem leavesOf_nil : leavesOf [] = [] := by rw [leavesOf]

@[simp]
theorem leavesOf_cons (t : Tree) (ts : List Tree) :
    leavesOf (t :: ts) = t.leaves ++ leavesOf ts := by
  rw [leavesOf]

/-- The leaves of several trees are those of each, one after the other. -/
@[simp]
theorem leavesOf_append (ts us : List Tree) : leavesOf (ts ++ us) = leavesOf ts ++ leavesOf us := by
  induction ts with
  | nil => simp
  | cons t ts ih => simp [ih]

/-- Leaves alone are their own tokens. -/
@[simp]
theorem leavesOf_map_leaf (ts : List Token) : leavesOf (ts.map leaf) = ts := by
  induction ts with
  | nil => simp
  | cons t ts ih => simp [ih]

end Tree

end AlertAudit.Template
