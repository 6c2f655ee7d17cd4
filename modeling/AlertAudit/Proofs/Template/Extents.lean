import AlertAudit.Proofs.Template.Lossless
import AlertAudit.Template.Outline

/-!
The spans in the outline of a template. Tokens do not overlap, so the first and the last token of a
tree bound all of its tokens; and since the node of an operand has a token, an operand lies between
the tokens of every tree around it. So the operands of an action lie in the span of the action.
-/

set_option autoImplicit false

namespace AlertAudit.Text

/-- `inner` covers no byte that `outer` does not cover. -/
def Span.Within (inner outer : Span) : Prop := outer.start ≤ inner.start ∧ inner.stop ≤ outer.stop

end AlertAudit.Text

namespace AlertAudit.Template

open AlertAudit.Text AlertAudit.Template.Tree

/-! ### Tokens -/

/-- Tokens in the order in which they stand in a text, without an overlap. -/
def Ordered (tokens : List Token) : Prop := tokens.Pairwise fun a b ↦ a.stop ≤ b.start

theorem Token.start_le_stop (t : Token) : t.start ≤ t.stop := Nat.le_add_right _ _

/-- The tokens of lexemes start behind the place where the first one does. -/
theorem start_le_of_mem_place {start : Nat} {lexemes : List Lexeme} {t : Token}
    (h : t ∈ Token.place start lexemes) : start ≤ t.start := by
  induction lexemes generalizing start with
  | nil => exact absurd h List.not_mem_nil
  | cons l ls ih =>
    rw [Token.place] at h
    rcases List.mem_cons.mp h with rfl | h
    · exact Nat.le_refl _
    · exact Nat.le_trans (Nat.le_add_right _ _) (ih h)

/-- The tokens of lexemes are in the order of the text. -/
theorem ordered_place (start : Nat) (lexemes : List Lexeme) :
    Ordered (Token.place start lexemes) := by
  induction lexemes generalizing start with
  | nil => exact List.Pairwise.nil
  | cons l ls ih =>
    rw [Token.place]
    exact List.pairwise_cons.mpr ⟨fun t ht ↦ start_le_of_mem_place ht, ih _⟩

/-- Parts of tokens in order are in order. -/
theorem Ordered.append {ts us : List Token} (h : Ordered (ts ++ us)) : Ordered ts ∧ Ordered us :=
  ⟨(List.pairwise_append.mp h).1, (List.pairwise_append.mp h).2.1⟩

/-- No token starts in front of the first one. -/
theorem Ordered.start_le {first t : Token} {tokens : List Token} (h : Ordered tokens)
    (hfirst : tokens.head? = some first) (ht : t ∈ tokens) : first.start ≤ t.start := by
  obtain ⟨rest, rfl⟩ := List.head?_eq_some_iff.mp hfirst
  rcases List.mem_cons.mp ht with rfl | ht
  · exact Nat.le_refl _
  · exact Nat.le_trans first.start_le_stop ((List.pairwise_cons.mp h).1 t ht)

/-- No token stops behind the last one. -/
theorem Ordered.stop_le {last t : Token} {tokens : List Token} (h : Ordered tokens)
    (hlast : tokens.getLast? = some last) (ht : t ∈ tokens) : t.stop ≤ last.stop := by
  obtain ⟨front, rfl⟩ := List.getLast?_eq_some_iff.mp hlast
  rcases List.mem_append.mp ht with ht | ht
  · have hle := (List.pairwise_append.mp h).2.2 t ht last (List.mem_singleton_self last)
    exact Nat.le_trans hle last.start_le_stop
  · rw [List.mem_singleton.mp ht]

/-! ### Spans of trees -/

namespace Tree

mutual

/-- The first token of a tree is its first leaf. -/
theorem first?_eq : ∀ t : Tree, t.first? = t.leaves.head?
  | leaf t => by rw [first?, leaves_leaf, List.head?_cons]
  | node _ children => by rw [first?, leaves_node, firstOf?_eq children]

theorem firstOf?_eq : ∀ ts : List Tree, firstOf? ts = (leavesOf ts).head?
  | [] => by rw [firstOf?, leavesOf_nil, List.head?_nil]
  | t :: ts => by
    rw [firstOf?, first?_eq t, firstOf?_eq ts, leavesOf_cons, List.head?_append]
    cases t.leaves.head? with
    | none => rfl
    | some _ => rfl

end

mutual

/-- The last token of a tree is its last leaf. -/
theorem last?_eq : ∀ t : Tree, t.last? = t.leaves.getLast?
  | leaf t => by rw [last?, leaves_leaf, List.getLast?_singleton]
  | node _ children => by rw [last?, leaves_node, lastOf?_eq children]

theorem lastOf?_eq : ∀ ts : List Tree, lastOf? ts = (leavesOf ts).getLast?
  | [] => by rw [lastOf?, leavesOf_nil, List.getLast?_nil]
  | t :: ts => by
    rw [lastOf?, last?_eq t, lastOf?_eq ts, leavesOf_cons, List.getLast?_append]
    cases (leavesOf ts).getLast? with
    | none => rfl
    | some _ => rfl

end

/-- The span of a tree that has tokens, and an empty one of a tree that has none. -/
def extent (t : Tree) : Span := t.span?.getD ⟨0, 0⟩

/-- A tree with tokens reaches from the first of them to the last. -/
theorem exists_extent_eq {t : Tree} (h : t.leaves ≠ []) :
    ∃ first last : Token, t.leaves.head? = some first ∧ t.leaves.getLast? = some last ∧
      t.extent = ⟨first.start, last.stop⟩ := by
  obtain ⟨first, hfirst⟩ := Option.ne_none_iff_exists'.mp (mt List.head?_eq_none_iff.mp h)
  obtain ⟨last, hlast⟩ := Option.ne_none_iff_exists'.mp (mt List.getLast?_eq_none_iff.mp h)
  refine ⟨first, last, hfirst, hlast, ?_⟩
  rw [extent, span?, first?_eq, last?_eq, hfirst, hlast]
  rfl

/-- The tokens of a tree lie in its span. -/
theorem within_extent {t : Tree} {token : Token} (h : Ordered t.leaves) (hmem : token ∈ t.leaves) :
    token.span.Within t.extent := by
  obtain ⟨first, last, hfirst, hlast, hextent⟩ := exists_extent_eq (List.ne_nil_of_mem hmem)
  rw [hextent]
  exact ⟨h.start_le hfirst hmem, h.stop_le hlast hmem⟩

/-- A tree that has tokens lies where they do. -/
theorem extent_within {t : Tree} {outer : Span} (hne : t.leaves ≠ [])
    (h : ∀ token ∈ t.leaves, token.span.Within outer) : t.extent.Within outer := by
  obtain ⟨first, last, hfirst, hlast, hextent⟩ := exists_extent_eq hne
  rw [hextent]
  exact ⟨(h first (List.mem_of_head? hfirst)).1, (h last (List.mem_of_getLast? hlast)).2⟩

end Tree

/-! ### Spans of operands -/

mutual

/-- An operand lies in a span, and if it is a pipeline in parentheses, so do the operands there. -/
inductive Operand.Inside (outer : Span) : Operand → Prop
  | mk {term : Term} {span : Span} {fields : List Token} : span.Within outer →
    (∀ p, term = .paren (some p) → p.Inside outer) → Operand.Inside outer (.mk term span fields)

/-- The operands of a pipeline lie in a span. -/
inductive Pipeline.Inside (outer : Span) : Pipeline → Prop
  | mk {decl : Option Decl} {commands : List (List Operand)} :
    (∀ c ∈ commands, ∀ o ∈ c, o.Inside outer) → Pipeline.Inside outer (.mk decl commands)

end

mutual

/-- The pipelines of an item and of the items in it lie in the spans of these items. -/
inductive Item.Spanned : Item → Prop
  | action {span : Span} {p : Option Pipeline} : (∀ q ∈ p, q.Inside span) →
    Item.Spanned (.action span p)
  | control {kind : Control} {span : Span} {p : Option Pipeline} {b : Body} {o : Otherwise} :
    (∀ q ∈ p, q.Inside span) → b.Spanned → o.Spanned → Item.Spanned (.control kind span p b o)
  | define {span : Span} {name : Option String} {b : Body} : b.Spanned →
    Item.Spanned (.define span name b)
  | block {span : Span} {name : Option String} {p : Option Pipeline} {b : Body} :
    (∀ q ∈ p, q.Inside span) → b.Spanned → Item.Spanned (.block span name p b)
  | call {span : Span} {name : Option String} {p : Option Pipeline} :
    (∀ q ∈ p, q.Inside span) → Item.Spanned (.call span name p)

inductive Body.Spanned : Body → Prop
  | missing : Body.Spanned .missing
  | items {is : List Item} : (∀ i ∈ is, i.Spanned) → Body.Spanned (.items is)

inductive Otherwise.Spanned : Otherwise → Prop
  | none : Otherwise.Spanned .none
  | nested {i : Item} : i.Spanned → Otherwise.Spanned (.nested i)
  | body {b : Body} : b.Spanned → Otherwise.Spanned (.body b)

end

/-! ### Outlines -/

/-- What a tree contributes, if the tree stands in a node with the span `outer`. -/
def Part.Placed (outer : Span) : Part → Prop
  | .operand o => o.Inside outer
  | .command os => ∀ o ∈ os, o.Inside outer
  | .pipeline p => p.Inside outer
  | .list is => ∀ i ∈ is, i.Spanned
  | .otherwise o => o.Spanned
  | .item i => i.Spanned
  | .token _ | .decl _ | .nothing => True

namespace Outline

section Parts

variable {α : Type} {outer : Span} {parts : List Part} {Q : Part → Prop}

/-- What is found among the parts of a node. -/
theorem of_findSome? {f : Part → Option α} {P : α → Prop}
    (hf : ∀ part a, Q part → f part = some a → P a) (h : ∀ part ∈ parts, Q part) :
    ∀ a ∈ parts.findSome? f, P a := by
  intro a ha
  obtain ⟨part, hmem, hpart⟩ := List.exists_of_findSome?_eq_some ha
  exact hf part a (h part hmem) hpart

/-- What is gathered from the parts of a node. -/
theorem of_filterMap {f : Part → Option α} {P : α → Prop}
    (hf : ∀ part a, Q part → f part = some a → P a) (h : ∀ part ∈ parts, Q part) :
    ∀ a ∈ parts.filterMap f, P a := by
  intro a ha
  obtain ⟨part, hmem, hpart⟩ := List.mem_filterMap.mp ha
  exact hf part a (h part hmem) hpart

/-- A pipeline that is found lies in the node. -/
theorem inside_of_pipeline? (part : Part) (p : Pipeline) (h : part.Placed outer)
    (hp : part.pipeline? = some p) : p.Inside outer := by
  cases part with
  | pipeline q =>
    obtain rfl := Option.some.inj hp
    exact h
  | _ => exact absurd hp (Option.some_ne_none p).symm

/-- So does an operand. -/
theorem inside_of_operand? (part : Part) (o : Operand) (h : part.Placed outer)
    (ho : part.operand? = some o) : o.Inside outer := by
  cases part with
  | operand q =>
    obtain rfl := Option.some.inj ho
    exact h
  | _ => exact absurd ho (Option.some_ne_none o).symm

/-- So do the operands of a command. -/
theorem inside_of_command? (part : Part) (c : List Operand) (h : part.Placed outer)
    (hc : part.command? = some c) : ∀ o ∈ c, o.Inside outer := by
  cases part with
  | command os =>
    obtain rfl := Option.some.inj hc
    exact h
  | _ => exact absurd hc (Option.some_ne_none c).symm

/-- An item that is found has its pipelines in its own span. -/
theorem spanned_of_item? (part : Part) (i : Item) (h : part.Placed outer)
    (hi : part.item? = some i) : i.Spanned := by
  cases part with
  | item j =>
    obtain rfl := Option.some.inj hi
    exact h
  | _ => exact absurd hi (Option.some_ne_none i).symm

/-- So have the items of a list. -/
theorem spanned_of_list? (part : Part) (b : Body) (h : part.Placed outer)
    (hb : part.list? = some b) : b.Spanned := by
  cases part with
  | list is =>
    obtain rfl := Option.some.inj hb
    exact .items h
  | _ => exact absurd hb (Option.some_ne_none b).symm

/-- So have those of an else branch. -/
theorem spanned_of_otherwise? (part : Part) (o : Otherwise) (h : part.Placed outer)
    (ho : part.otherwise? = some o) : o.Spanned := by
  cases part with
  | otherwise q =>
    obtain rfl := Option.some.inj ho
    exact h
  | _ => exact absurd ho (Option.some_ne_none o).symm

/-- So has a block behind an else. -/
theorem spanned_of_nested? (part : Part) (i : Item) (h : part.Placed outer)
    (hi : part.nested? = some i) : i.Spanned := by
  unfold Part.nested? at hi
  split at hi
  · split at hi
    · exact absurd hi (Option.some_ne_none i).symm
    · obtain rfl := Option.some.inj hi
      exact h
  · exact absurd hi (Option.some_ne_none i).symm

/-- The list of a block has its pipelines in the spans of its items. -/
theorem spanned_body (h : ∀ part ∈ parts, part.Placed outer) : (body parts).Spanned := by
  have hlist := of_findSome? spanned_of_list? h
  rw [body]
  cases hfound : parts.findSome? Part.list? with
  | none => exact .missing
  | some b => exact hlist b hfound

/-- So has what follows the list. -/
theorem spanned_otherwise (h : ∀ part ∈ parts, part.Placed outer) :
    ((parts.findSome? Part.otherwise?).getD .none).Spanned := by
  have hbranch := of_findSome? spanned_of_otherwise? h
  cases hfound : parts.findSome? Part.otherwise? with
  | none => exact .none
  | some o => exact hbranch o hfound

end Parts

/-- What a node contributes, from what its children contribute to it and to the node around it. -/
theorem placed_assemble {kind : NodeKind} {tree : Tree} {parts : List Part} {outer : Span}
    (hown : ∀ part ∈ parts, part.Placed tree.extent) (houter : ∀ part ∈ parts, part.Placed outer)
    (hextent : kind.isOperand → tree.extent.Within outer) :
    (assemble kind tree parts).Placed outer := by
  have hterm : ∀ term : Term, kind.isOperand → (∀ p, term ≠ .paren (some p)) →
      (Operand.mk term tree.extent (tokensOf .field parts)).Inside outer :=
    fun term hkind hterm ↦ .mk (hextent hkind) fun p hp ↦ absurd hp (hterm p)
  have hpipeline := of_findSome? inside_of_pipeline? hown
  cases kind with
  | list => exact of_filterMap spanned_of_item? houter
  | action => exact .action hpipeline
  | control kind => exact .control hpipeline (spanned_body hown) (spanned_otherwise hown)
  | elseBranch =>
    cases hnested : parts.findSome? Part.nested? with
    | none =>
      simp only [assemble, hnested]
      exact .body (spanned_body houter)
    | some i =>
      simp only [assemble, hnested]
      exact .nested (of_findSome? spanned_of_nested? houter i hnested)
  | define => exact .define (spanned_body hown)
  | block => exact .block hpipeline (spanned_body hown)
  | call => exact .call hpipeline
  | pipeline => exact .mk (of_filterMap inside_of_command? houter)
  | command => exact of_filterMap inside_of_operand? houter
  | dot => exact hterm _ rfl (by simp)
  | field => exact hterm _ rfl (by simp)
  | «variable» => exact hterm _ rfl (by simp)
  | function => exact hterm _ rfl (by simp)
  | literal => exact hterm _ rfl (by simp)
  | paren =>
    refine .mk (hextent rfl) fun p hp ↦ of_findSome? inside_of_pipeline? houter p ?_
    exact Term.paren.inj hp
  | decl => trivial
  | error => trivial
  | root => trivial
  | comment => trivial
  | endAction => trivial
  | breakLoop => trivial
  | continueLoop => trivial

mutual

/-- What a tree contributes stands between the tokens of the trees around it. -/
theorem placed_ofTree : ∀ tree : Tree, tree.Plain → Ordered tree.leaves →
    ∀ outer : Span, (∀ token ∈ tree.leaves, token.span.Within outer) → (ofTree tree).Placed outer
  | .leaf t, _, _, outer, _ => by
    rw [ofTree]
    trivial
  | .node kind children, hplain, hordered, outer, houter => by
    have hchildren : ∀ outer : Span,
        (∀ token ∈ (Tree.node kind children).leaves, token.span.Within outer) →
          ∀ part ∈ ofTrees children, part.Placed outer := by
      intro outer houter
      rw [leaves_node] at hordered houter
      exact placed_ofTrees children (fun c hc ↦ hplain.of_mem hc) hordered outer houter
    rw [ofTree]
    refine placed_assemble (hchildren _ fun token ↦ within_extent hordered)
      (hchildren outer houter) fun hoperand ↦ extent_within ?_ houter
    rw [leaves_node]
    exact hplain.regular.2 hoperand

/-- What some trees contribute stands between the tokens of the trees around them. -/
theorem placed_ofTrees : ∀ trees : List Tree, (∀ t ∈ trees, t.Plain) → Ordered (leavesOf trees) →
    ∀ outer : Span, (∀ token ∈ leavesOf trees, token.span.Within outer) →
      ∀ part ∈ ofTrees trees, part.Placed outer
  | [], _, _, _, _ => by
    rw [ofTrees]
    exact fun _ h ↦ absurd h List.not_mem_nil
  | t :: ts, hplain, hordered, outer, houter => by
    rw [leavesOf_cons] at hordered houter
    rw [ofTrees]
    intro part hpart
    rcases List.mem_cons.mp hpart with rfl | hpart
    · exact placed_ofTree t (hplain t List.mem_cons_self) hordered.append.1 outer
        fun token htoken ↦ houter token (List.mem_append_left _ htoken)
    · exact placed_ofTrees ts (fun c hc ↦ hplain c (List.mem_cons_of_mem _ hc))
        hordered.append.2 outer (fun token htoken ↦ houter token (List.mem_append_right _ htoken))
        part hpart

end

end Outline

/-- The pipelines in the outline of an accepted template lie in the spans of their items. -/
theorem spanned_items {text : String} (h : (Parse.ofText text).error = none) :
    ∀ i ∈ (Parse.ofText text).tree.items, i.Spanned := by
  obtain ⟨parsed, tail, hbuilt, -, -, hleaves, hplain, htail⟩ := Parser.final_spec text
  have herror : (Parser.State.final text).error = none := h
  have hnil : tail = [] := by
    refine htail.resolve_right fun hfails ↦ ?_
    rw [herror] at hfails
    exact absurd hfails.1 Bool.false_ne_true
  rw [hnil, List.append_nil] at hbuilt hleaves
  have hordered : Ordered (leavesOf parsed) := by
    rw [hleaves]
    exact ordered_place 0 _
  rw [Parse.ofText_eq, hbuilt, List.headD_cons, Tree.items]
  have hplaced := Outline.placed_ofTrees parsed hplain hordered (Tree.node .root parsed).extent
  refine Outline.of_filterMap Outline.spanned_of_item? (hplaced fun token htoken ↦ ?_)
  rw [← leaves_node .root] at hordered htoken
  exact within_extent hordered htoken

end AlertAudit.Template
