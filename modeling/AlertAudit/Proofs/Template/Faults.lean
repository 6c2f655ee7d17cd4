import AlertAudit.Proofs.Template.Acceptance
import AlertAudit.Proofs.Template.Extents

/-!
Where the parser stops. Whatever it does, it records an error at the token that is next, and it goes
on behind that place (`State.GrowsTo.fault`). So the error of a template is at one of its tokens or
at its end, and the tokens that are left over for the error node start there or further behind. A
template that cannot be read to its end breaks the rules of the grammar, hence it has an error,
wherever the parser stops.
-/

set_option autoImplicit false

namespace AlertAudit.Template

open AlertAudit.Text AlertAudit.Template.Tree

/-- The span is that of a token that is no white space, or it is empty and at the end of the text.
-/
def StopsAt (text : String) (span : Span) : Prop :=
  (∃ t ∈ (Tokens.ofText text).tokens, t.kind ≠ .whitespace ∧ span = t.span) ∨
    span = ⟨text.utf8ByteSize, text.utf8ByteSize⟩

namespace Tree

theorem eq_of_within_leaf {c : Tree} {t : Token} (h : Within c (.leaf t)) : c = .leaf t := by
  rcases Relation.ReflTransGen.cases_tail h with h | ⟨_, _, hchild⟩
  · exact h.symm
  · cases hchild

/-- What stands in a node is the node itself or stands in one of its children. -/
theorem within_node_iff {c : Tree} {kind : NodeKind} {children : List Tree} :
    Within c (.node kind children) ↔
      c = .node kind children ∨ ∃ child ∈ children, Within c child := by
  constructor
  · intro h
    rcases Relation.ReflTransGen.cases_tail h with h | ⟨child, hwithin, hchild⟩
    · exact .inl h.symm
    · cases hchild with
      | mem hmem => exact .inr ⟨child, hmem, hwithin⟩
  · rintro (rfl | ⟨child, hmem, hwithin⟩)
    · exact .refl
    · exact hwithin.tail (.mem hmem)

end Tree

namespace Parser

/-- An error node at the end of a template holds the tokens that are left over behind the items. -/
theorem children_of_within_error {text : String} {children : List Tree}
    (h : Within (.node .error children) (Parse.ofText text).tree) :
    children = (State.afterItems text).look.rest.map .leaf := by
  have hgrows := (growsTo_afterItems text).trans ((growsTo_look _).trans (growsTo_settle _))
  obtain ⟨parsed, hbuilt, -, hplain⟩ := hgrows.trees
  have hbuilt : (State.afterItems text).look.settle.built = parsed.reverse :=
    hbuilt.trans (List.append_nil _)
  have hparsed : ∀ part ∈ (State.afterItems text).look.settle.built,
      ¬Within (.node .error children) part := by
    intro part hpart hwithin
    rw [hbuilt] at hpart
    exact absurd (hplain part (List.mem_reverse.mp hpart) _ hwithin).1 (by decide)
  have htree : (Parse.ofText text).tree =
      .node .root (takeRest (.afterItems text)).2.built.reverse := rfl
  rw [htree, within_node_iff] at h
  obtain ⟨part, hpart, hwithin⟩ := h.resolve_left (by simp)
  rw [List.mem_reverse] at hpart
  by_cases hrest : (State.afterItems text).look.rest = []
  · rw [takeRest_apply_of_nil hrest] at hpart
    exact absurd hwithin (hparsed part hpart)
  · rw [takeRest_apply_of_ne_nil hrest] at hpart
    rcases List.mem_cons.mp hpart with rfl | hpart
    · rcases within_node_iff.mp hwithin with heq | ⟨leaf, hleaf, hwithin⟩
      · injection heq
      · obtain ⟨t, -, rfl⟩ := List.mem_map.mp hleaf
        exact absurd (eq_of_within_leaf hwithin) nofun
    · exact absurd hwithin (hparsed part hpart)

/-- Nothing in front of the place of the error is left over. -/
theorem State.Stops.start_le {s t : State} {span : Span} (h : s.Stops t span)
    (hordered : Ordered s.rest) {token : Token} (htoken : token ∈ t.rest) :
    span.start ≤ token.start := by
  rcases h with ⟨first, rest, hsuffix, -, rfl, hrest⟩ | ⟨-, hrest⟩
  · have hbehind : Ordered (first :: rest) := hordered.sublist hsuffix.sublist
    exact hbehind.start_le rfl (hrest.subset htoken)
  · rw [hrest] at htoken
    exact absurd htoken List.not_mem_nil

end Parser

/-- A template that cannot be read to its end has an error. Every error is at a token that is no
white space or at the end of the template, and no token in front of that place is in an error node.
-/
theorem faults_ofText (text : String) :
    ((Tokens.ofText text).error.isSome → (Parse.ofText text).error.isSome) ∧
      ∀ e, (Parse.ofText text).error = some e → StopsAt text e.span ∧
        ∀ children, Within (.node .error children) (Parse.ofText text).tree →
          ∀ t ∈ leavesOf children, e.span.start ≤ t.start := by
  constructor
  · intro hscan
    rw [Option.isSome_iff_ne_none] at hscan ⊢
    intro herror
    have hrules := (Parser.error_final_eq_none_iff text).mp herror
    exact hscan (error_eq_none_of_legal (Grammar.legal_of_template hrules))
  · intro e he
    have herror : (Parser.State.afterItems text).error = some e := by
      rw [← Parser.error_final]
      exact he
    have hstops := (Parser.growsTo_afterItems text).fault rfl e herror
    constructor
    · rcases hstops with ⟨t, rest, hsuffix, ht, hspan, -⟩ | ⟨hspan, -⟩
      · have hkind : t.kind ≠ .whitespace := of_decide_eq_false ht
        exact .inl ⟨t, hsuffix.subset List.mem_cons_self, hkind, hspan⟩
      · exact .inr hspan
    · intro children hchildren t ht
      rw [Parser.children_of_within_error hchildren, leavesOf_map_leaf] at ht
      have hleft := (List.dropWhile_suffix _).subset ht
      exact hstops.start_le (ordered_place 0 _) hleft

/-- `{{nil}}b{{#` -/
def nilBeforeNonsense : String := "\x7b\x7bnil\x7d\x7db\x7b\x7b#"

/-- The tokens behind the action, of which the last one cannot be read. -/
def leftOver : List Token := [⟨.text, 7, "b"⟩, ⟨.leftDelim, 8, "\x7b\x7b"⟩, ⟨.lexError, 10, "#"⟩]

/-- The action with the pipeline that cannot be run, and what is left over. -/
def nilTree : Tree :=
  .node .root [
    .node .action [.leaf ⟨.leftDelim, 0, "\x7b\x7b"⟩,
      .node .pipeline [.node .command [.node .literal [.leaf ⟨.keyword .nilWord, 2, "nil"⟩]]],
      .leaf ⟨.rightDelim, 5, "\x7d\x7d"⟩],
    .node .error (leftOver.map .leaf)]

set_option maxRecDepth 100000 in
/-- The error is at the pipeline, and what the error node holds comes behind it. -/
theorem faults_ofText_nil : (Parse.ofText nilBeforeNonsense).error.isSome ∧
    (Parse.ofText nilBeforeNonsense).error = some ⟨.nilCommand, ⟨5, 7⟩⟩ ∧
    StopsAt nilBeforeNonsense ⟨5, 7⟩ ∧
    Within (.node .error (leftOver.map .leaf)) (Parse.ofText nilBeforeNonsense).tree ∧
    ∀ t ∈ leftOver, 5 ≤ t.start := by
  have hscan : (Tokens.ofText nilBeforeNonsense).error.isSome := by decide +kernel
  have herror : (Parse.ofText nilBeforeNonsense).error = some ⟨.nilCommand, ⟨5, 7⟩⟩ := by
    decide +kernel
  have htree : (Parse.ofText nilBeforeNonsense).tree = nilTree := by with_unfolding_all rfl
  have hwithin : Within (.node .error (leftOver.map .leaf))
      (Parse.ofText nilBeforeNonsense).tree := by
    rw [htree]
    exact within_node_iff.mpr (.inr ⟨_, List.mem_cons_of_mem _ List.mem_cons_self, .refl⟩)
  obtain ⟨hcomplete, hplaced⟩ := faults_ofText nilBeforeNonsense
  obtain ⟨hstop, hbehind⟩ := hplaced _ herror
  refine ⟨hcomplete hscan, herror, hstop, hwithin, fun t ht ↦ hbehind _ hwithin t ?_⟩
  rw [leavesOf_map_leaf]
  exact ht

end AlertAudit.Template
