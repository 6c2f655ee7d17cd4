import AlertAudit.Proofs.Template.Bare
import AlertAudit.Proofs.Template.Extents
import Mathlib.Logic.Basic

/-!
What is asked of the nodes of a tree. An outline looks for the parts of a node by what they are, and
for a part that is not there it shows nothing. `Answers` says which parts a node of each kind must
have; where every node of a tree answers, nothing is missing in the outline of the tree
(`complete_ofTree`).
-/

set_option autoImplicit false

namespace AlertAudit.Template

open Outline

/-! ### Nodes -/

/-- A node of the kind has all that is asked of it, if its children contribute `parts`. -/
def Answers : NodeKind → List Part → Prop
  | .action, parts | .paren, parts => (parts.findSome? Part.pipeline?).isSome
  | .control _, parts => (parts.findSome? Part.pipeline?).isSome ∧ body parts ≠ .missing
  | .define, parts => (templateName? parts).isSome ∧ body parts ≠ .missing
  | .block, parts => (templateName? parts).isSome ∧ (parts.findSome? Part.pipeline?).isSome ∧
      body parts ≠ .missing
  | .call, parts => (templateName? parts).isSome
  | .elseBranch, parts => Xor (parts.findSome? Part.nested?).isSome (body parts ≠ .missing)
  | .pipeline, parts => parts.filterMap Part.command? ≠ []
  | .command, parts => parts.filterMap Part.operand? ≠ []
  | .decl, parts | .variable, parts => Outline.tokensOf .variable parts ≠ []
  | .function, parts => Outline.tokensOf .identifier parts ≠ []
  | .literal, parts => ∃ t, (parts.filterMap Part.token?).find? (!·.isTrivia) = some t ∧
      (t.stringValue?.isSome ↔ t.kind = .str ∨ t.kind = .rawStr)
  | _, _ => True

/-- Every node in the tree has all that is asked of it. -/
def Tree.Answering (t : Tree) : Prop :=
  ∀ kind children, Within (.node kind children) t → Answers kind (ofTrees children)

namespace Tree

theorem answering_leaf (t : Token) : (leaf t).Answering := by
  intro kind children hwithin
  rcases Relation.ReflTransGen.cases_tail hwithin with heq | ⟨_, _, hchild⟩
  · cases heq
  · cases hchild

theorem answering_node {kind : NodeKind} {children : List Tree}
    (hself : Answers kind (ofTrees children)) (hchildren : ∀ c ∈ children, c.Answering) :
    (node kind children).Answering := by
  intro kind' children' hwithin
  rcases Relation.ReflTransGen.cases_tail hwithin with heq | ⟨c, hc, hchild⟩
  · obtain ⟨rfl, rfl⟩ := node.inj heq
    exact hself
  · cases hchild with
    | mem hmem => exact hchildren c hmem _ _ hc

theorem Answering.of_mem {kind : NodeKind} {children : List Tree} {c : Tree}
    (h : (node kind children).Answering) (hmem : c ∈ children) : c.Answering :=
  fun _ _ hwithin ↦ h _ _ (hwithin.tail (.mem hmem))

theorem Answering.answers {kind : NodeKind} {children : List Tree}
    (h : (node kind children).Answering) : Answers kind (ofTrees children) :=
  h _ _ .refl

end Tree

/-! ### Outlines -/

mutual

/-- Nothing is missing in an operand or in the pipeline between its parentheses. -/
inductive Operand.Complete : Operand → Prop
  | dot {span : Text.Span} {fields : List Token} : Operand.Complete (.mk .dot span fields)
  | field {span : Text.Span} {fields : List Token} : Operand.Complete (.mk .field span fields)
  | variable {span : Text.Span} {fields : List Token} (name : Token) :
    Operand.Complete (.mk (.variable (some name)) span fields)
  | function {span : Text.Span} {fields : List Token} (name : Token) :
    Operand.Complete (.mk (.function (some name)) span fields)
  | literal {span : Text.Span} {fields : List Token} (token : Token) :
    Operand.Complete (.mk (.literal (some token)) span fields)
  | paren {span : Text.Span} {fields : List Token} {p : Pipeline} : p.Complete →
    Operand.Complete (.mk (.paren (some p)) span fields)

/-- A pipeline has commands, and these have operands; what is declared has a name. -/
inductive Pipeline.Complete : Pipeline → Prop
  | mk {decl : Option Decl} {commands : List (List Operand)} : (∀ d ∈ decl, d.names ≠ []) →
    commands ≠ [] → (∀ c ∈ commands, c ≠ []) → (∀ c ∈ commands, ∀ o ∈ c, o.Complete) →
    Pipeline.Complete (.mk decl commands)

end

mutual

/-- Nothing is missing in an item or in the items in it. -/
inductive Item.Complete : Item → Prop
  | action {span : Text.Span} {p : Pipeline} : p.Complete → Item.Complete (.action span (some p))
  | control {kind : Control} {span : Text.Span} {p : Pipeline} {b : Body} {o : Otherwise} :
    p.Complete → b.Complete → o.Complete → Item.Complete (.control kind span (some p) b o)
  | define {span : Text.Span} {name : String} {b : Body} : b.Complete →
    Item.Complete (.define span (some name) b)
  | block {span : Text.Span} {name : String} {p : Pipeline} {b : Body} : p.Complete → b.Complete →
    Item.Complete (.block span (some name) (some p) b)
  | call {span : Text.Span} {name : String} {p : Option Pipeline} : (∀ q ∈ p, q.Complete) →
    Item.Complete (.call span (some name) p)

inductive Body.Complete : Body → Prop
  | items {is : List Item} : (∀ i ∈ is, i.Complete) → Body.Complete (.items is)

inductive Otherwise.Complete : Otherwise → Prop
  | none : Otherwise.Complete .none
  | nested {i : Item} : i.Complete → Otherwise.Complete (.nested i)
  | body {b : Body} : b.Complete → Otherwise.Complete (.body b)

end

/-- Nothing is missing in what a tree contributes. -/
def Part.Complete : Part → Prop
  | .operand o => o.Complete
  | .command os => os ≠ [] ∧ ∀ o ∈ os, o.Complete
  | .decl d => d.names ≠ []
  | .pipeline p => p.Complete
  | .list is => ∀ i ∈ is, i.Complete
  | .otherwise o => o.Complete
  | .item i => i.Complete
  | .token _ | .nothing => True

namespace Outline

section Parts

variable {parts : List Part}

theorem complete_of_pipeline? (part : Part) (p : Pipeline) (h : part.Complete)
    (hp : part.pipeline? = some p) : p.Complete := by
  cases part <;> cases hp
  exact h

theorem names_ne_nil_of_decl? (part : Part) (d : Decl) (h : part.Complete)
    (hd : part.decl? = some d) : d.names ≠ [] := by
  cases part <;> cases hd
  exact h

theorem complete_of_command? (part : Part) (os : List Operand) (h : part.Complete)
    (hos : part.command? = some os) : os ≠ [] ∧ ∀ o ∈ os, o.Complete := by
  cases part <;> cases hos
  exact h

theorem complete_of_operand? (part : Part) (o : Operand) (h : part.Complete)
    (ho : part.operand? = some o) : o.Complete := by
  cases part <;> cases ho
  exact h

theorem complete_of_item? (part : Part) (i : Item) (h : part.Complete)
    (hi : part.item? = some i) : i.Complete := by
  cases part <;> cases hi
  exact h

theorem complete_of_list? (part : Part) (b : Body) (h : part.Complete)
    (hb : part.list? = some b) : b.Complete := by
  cases part <;> cases hb
  exact .items h

theorem complete_of_otherwise? (part : Part) (o : Otherwise) (h : part.Complete)
    (ho : part.otherwise? = some o) : o.Complete := by
  cases part <;> cases ho
  exact h

theorem complete_of_nested? (part : Part) (i : Item) (h : part.Complete)
    (hi : part.nested? = some i) : i.Complete := by
  unfold Part.nested? at hi
  split at hi
  · split at hi
    · cases hi
    · cases hi
      exact h
  · cases hi

theorem complete_body (hself : body parts ≠ .missing) (hparts : ∀ part ∈ parts, part.Complete) :
    (body parts).Complete := by
  rw [body] at hself ⊢
  cases hfound : parts.findSome? Part.list? with
  | none => exact absurd (by rw [hfound]; rfl) hself
  | some b => exact of_findSome? complete_of_list? hparts b hfound

theorem complete_otherwise (hparts : ∀ part ∈ parts, part.Complete) :
    ((parts.findSome? Part.otherwise?).getD .none).Complete := by
  cases hfound : parts.findSome? Part.otherwise? with
  | none => exact .none
  | some o => exact of_findSome? complete_of_otherwise? hparts o hfound

/-- What a node shows is complete if the node has all that is asked of it. -/
theorem complete_assemble {kind : NodeKind} {tree : Tree} {parts : List Part}
    (hself : Answers kind parts) (hparts : ∀ part ∈ parts, part.Complete) :
    (assemble kind tree parts).Complete := by
  have hpipeline := of_findSome? complete_of_pipeline? hparts
  cases kind with
  | list => exact of_filterMap complete_of_item? hparts
  | action =>
    obtain ⟨p, hp⟩ := Option.isSome_iff_exists.mp hself
    simp only [assemble, hp]
    exact .action (hpipeline p hp)
  | control kind =>
    obtain ⟨p, hp⟩ := Option.isSome_iff_exists.mp hself.1
    simp only [assemble, hp]
    exact .control (hpipeline p hp) (complete_body hself.2 hparts) (complete_otherwise hparts)
  | elseBranch =>
    cases hnested : parts.findSome? Part.nested? with
    | none =>
      simp only [Answers, hnested, Option.isSome_none, Bool.false_eq_true, xor_false, id] at hself
      simp only [assemble, hnested]
      exact .body (complete_body hself hparts)
    | some i =>
      simp only [assemble, hnested]
      exact .nested (of_findSome? complete_of_nested? hparts i hnested)
  | define =>
    obtain ⟨name, hname⟩ := Option.isSome_iff_exists.mp hself.1
    simp only [assemble, hname]
    exact .define (complete_body hself.2 hparts)
  | block =>
    obtain ⟨name, hname⟩ := Option.isSome_iff_exists.mp hself.1
    obtain ⟨p, hp⟩ := Option.isSome_iff_exists.mp hself.2.1
    simp only [assemble, hname, hp]
    exact .block (hpipeline p hp) (complete_body hself.2.2 hparts)
  | call =>
    obtain ⟨name, hname⟩ := Option.isSome_iff_exists.mp hself
    simp only [assemble, hname]
    exact .call hpipeline
  | pipeline =>
    have hcommands := of_filterMap complete_of_command? hparts
    exact .mk (of_findSome? names_ne_nil_of_decl? hparts) hself
      (fun c hc ↦ (hcommands c hc).1) fun c hc ↦ (hcommands c hc).2
  | command => exact ⟨hself, of_filterMap complete_of_operand? hparts⟩
  | decl => exact hself
  | dot => exact .dot
  | field => exact .field
  | «variable» =>
    obtain ⟨name, names, hnames⟩ := List.exists_cons_of_ne_nil hself
    simp only [assemble, hnames, List.head?_cons]
    exact .variable name
  | function =>
    obtain ⟨name, names, hnames⟩ := List.exists_cons_of_ne_nil hself
    simp only [assemble, hnames, List.head?_cons]
    exact .function name
  | literal =>
    obtain ⟨t, ht, -⟩ := hself
    simp only [assemble, ht]
    exact .literal t
  | paren =>
    obtain ⟨p, hp⟩ := Option.isSome_iff_exists.mp hself
    simp only [assemble, hp]
    exact .paren (hpipeline p hp)
  | error => trivial
  | root => trivial
  | comment => trivial
  | endAction => trivial
  | breakLoop => trivial
  | continueLoop => trivial

end Parts

mutual

/-- Where every node has all that is asked of it, nothing is missing in the outline. -/
theorem complete_ofTree : ∀ tree : Tree, tree.Answering → (ofTree tree).Complete
  | .leaf _, _ => by
    rw [ofTree]
    trivial
  | .node _ children, h => by
    rw [ofTree]
    exact complete_assemble h.answers (complete_ofTrees children fun _ hc ↦ h.of_mem hc)

theorem complete_ofTrees : ∀ trees : List Tree, (∀ t ∈ trees, t.Answering) →
    ∀ part ∈ ofTrees trees, part.Complete
  | [], _ => by
    rw [ofTrees]
    exact fun _ h ↦ absurd h List.not_mem_nil
  | t :: ts, h => by
    rw [ofTrees]
    intro part hpart
    rcases List.mem_cons.mp hpart with rfl | hpart
    · exact complete_ofTree t (h t List.mem_cons_self)
    · exact complete_ofTrees ts (fun u hu ↦ h u (List.mem_cons_of_mem _ hu)) part hpart

end

end Outline

/-- Nothing is missing in the items of a tree in which every node has all that is asked of it. -/
theorem Tree.Answering.complete_items {tree : Tree} (h : tree.Answering) :
    ∀ i ∈ tree.items, i.Complete := by
  cases tree with
  | leaf t => exact fun _ h ↦ absurd h List.not_mem_nil
  | node kind children =>
    exact Outline.of_filterMap Outline.complete_of_item?
      (Outline.complete_ofTrees children fun _ hc ↦ h.of_mem hc)

end AlertAudit.Template
