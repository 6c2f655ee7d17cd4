import AlertAudit.Proofs.Template.Spelling
import AlertAudit.Proofs.Template.TokenStream

/-!
The stretches of text in an outline: those of its operands, of their fields and of the functions
that they call. In an outline that is spelled each of them goes from a piece to a piece
(`Spelling.stretches_template`), and tokens stand where their characters do, so the stretches in the
outline of a template begin between two characters of its text (`fits_stretches`).
-/

set_option autoImplicit false

namespace AlertAudit.Template

open AlertAudit.Text

/-! ### Stretches in an outline -/

mutual

/-- The stretches of an operand, of its fields and of what it calls. -/
def Operand.stretches : Operand → List Span
  | .mk (.function (some name)) span fields => span :: name.span :: fields.map (·.span)
  | .mk (.paren (some p)) span fields => span :: p.stretches ++ fields.map (·.span)
  | .mk _ span fields => span :: fields.map (·.span)

def operandsStretches : List Operand → List Span
  | [] => []
  | o :: os => o.stretches ++ operandsStretches os

def commandsStretches : List (List Operand) → List Span
  | [] => []
  | c :: cs => operandsStretches c ++ commandsStretches cs

/-- The stretches of the operands in a pipeline. -/
def Pipeline.stretches : Pipeline → List Span
  | .mk _ cs => commandsStretches cs

end

def pipelineStretches (p : Option Pipeline) : List Span := p.elim [] Pipeline.stretches

mutual

/-- The stretches of the operands in an item. -/
def Item.stretches : Item → List Span
  | .action _ p | .call _ _ p => pipelineStretches p
  | .control _ _ p b o => pipelineStretches p ++ b.stretches ++ o.stretches
  | .define _ _ b => b.stretches
  | .block _ _ p b => pipelineStretches p ++ b.stretches

def Body.stretches : Body → List Span
  | .missing => []
  | .items is => itemsStretches is

def itemsStretches : List Item → List Span
  | [] => []
  | i :: is => i.stretches ++ itemsStretches is

def Otherwise.stretches : Otherwise → List Span
  | .none => []
  | .nested i => i.stretches
  | .body b => b.stretches

end

theorem subset_stretches (term : Term) (span : Span) (fields : List Token) :
    span :: fields.map (·.span) ⊆ (Operand.mk term span fields).stretches := by
  rw [List.cons_subset]
  cases term with
  | function name =>
    cases name with
    | none => simp [Operand.stretches]
    | some name => simp [Operand.stretches]
  | paren body =>
    cases body with
    | none => simp [Operand.stretches]
    | some p => simp [Operand.stretches]
  | dot | field | «variable» | literal => simp [Operand.stretches]

theorem itemsStretches_append (is js : List Item) :
    itemsStretches (is ++ js) = itemsStretches is ++ itemsStretches js := by
  induction is with
  | nil => rfl
  | cons i is ih => rw [List.cons_append, itemsStretches, itemsStretches, ih, List.append_assoc]

/-! ### Stretches between pieces -/

/-- Any stretch from a piece to a piece has a property. -/
def Between (P : Span → Prop) (ps : List Piece) : Prop :=
  ∀ p ∈ ps, ∀ q ∈ ps, P ⟨p.token.start, q.token.stop⟩

section Between

variable {P : Span → Prop} {ps qs : List Piece}

theorem Between.mono (h : Between P qs) (hsub : ps ⊆ qs) : Between P ps :=
  fun p hp q hq ↦ h p (hsub hp) q (hsub hq)

theorem Between.left (h : Between P (ps ++ qs)) : Between P ps :=
  h.mono (List.subset_append_left ps qs)

theorem Between.right (h : Between P (ps ++ qs)) : Between P qs :=
  h.mono (List.subset_append_right ps qs)

theorem Between.tail {p : Piece} (h : Between P (p :: ps)) : Between P ps :=
  h.mono (List.subset_cons_self p ps)

theorem Between.extentOf (h : Between P ps) (hne : ps ≠ []) : P (extentOf ps) := by
  obtain ⟨first, hfirst⟩ := Option.ne_none_iff_exists'.mp (mt List.head?_eq_none_iff.mp hne)
  obtain ⟨last, hlast⟩ := Option.ne_none_iff_exists'.mp (mt List.getLast?_eq_none_iff.mp hne)
  rw [Template.extentOf, hfirst, hlast]
  exact h first (List.mem_of_head? hfirst) last (List.mem_of_getLast? hlast)

theorem Between.fieldsOf (h : Between P ps) : ∀ s ∈ (fieldsOf ps).map (·.span), P s := by
  refine List.forall_mem_map.mpr fun t ht ↦ ?_
  obtain ⟨p, hp, rfl⟩ := List.mem_map.mp (List.mem_of_mem_filter ht)
  exact h p hp p hp

theorem forall_stretches_atom {t : Token} {span : Span} {fields : List Token} (hspan : P span)
    (ht : P t.span) (hfields : ∀ s ∈ fields.map (·.span), P s) :
    ∀ s ∈ (Operand.mk (termOf t) span fields).stretches, P s := by
  unfold termOf
  split <;> simp only [Operand.stretches, List.forall_mem_cons]
  · exact ⟨hspan, ht, hfields⟩
  all_goals exact ⟨hspan, hfields⟩

end Between

namespace Spelling

open AlertAudit.Template.Parser (OperandClass)

mutual

theorem stretches_operand {P : Span → Prop} {depth : Nat} {ps : List Piece} {c : OperandClass}
    {spaced : Bool} {o : Template.Operand} : Operand depth ps c spaced o → Between P ps →
      ∀ s ∈ o.stretches, P s
  | .atom (p := p) _ _ _, h => forall_stretches_atom (h.extentOf (List.cons_ne_nil _ _))
      (h p List.mem_cons_self p List.mem_cons_self) h.fieldsOf
  | .paren _ hpipeline _ _, h => by
    rw [Template.Operand.stretches, List.forall_mem_append, List.forall_mem_cons]
    exact ⟨⟨h.extentOf (by simp), stretches_pipeline hpipeline h.left.tail⟩, h.right.tail.fieldsOf⟩

theorem stretches_command {P : Span → Prop} {depth : Nat} {ps : List Piece} {c : OperandClass}
    {os : List Template.Operand} : Command depth ps c os → Between P ps →
      ∀ s ∈ operandsStretches os, P s
  | .last hoperand, h => by
    rw [operandsStretches, operandsStretches, List.append_nil]
    exact stretches_operand hoperand h
  | .more hoperand hcommand, h => by
    rw [operandsStretches, List.forall_mem_append]
    exact ⟨stretches_operand hoperand h.left, stretches_command hcommand h.right⟩

theorem stretches_stages {P : Span → Prop} {depth : Nat} {ps : List Piece}
    {cs : List (List Template.Operand)} : Stages depth ps cs → Between P ps →
      ∀ s ∈ commandsStretches cs, P s
  | .nil, _ | .bar _, _ => by
    rw [commandsStretches]
    exact List.forall_mem_nil _
  | .cons _ hcommand hstages, h => by
    rw [commandsStretches, List.forall_mem_append]
    exact ⟨stretches_command hcommand h.left.tail, stretches_stages hstages h.right⟩

theorem stretches_pipeline {P : Span → Prop} {depth : Nat} {inRange : Bool} {ps : List Piece}
    {pl : Template.Pipeline} : Pipeline depth inRange ps pl → Between P ps →
      ∀ s ∈ pl.stretches, P s
  | .mk _ hcommand _ hstages, h => by
    rw [Template.Pipeline.stretches, commandsStretches, List.forall_mem_append]
    exact ⟨stretches_command hcommand h.left.right, stretches_stages hstages h.right⟩

end

mutual

theorem stretches_item {P : Span → Prop} {inLoop : Bool} {ps : List Piece}
    {is : List Template.Item} : Item inLoop ps is → Between P ps → ∀ s ∈ itemsStretches is, P s
  | .text _, _ | .comment _, _ | .breaks _, _ | .continues _, _ => by
    rw [itemsStretches]
    exact List.forall_mem_nil _
  | .action _ hheader _, h => by
    rw [itemsStretches, itemsStretches, List.append_nil]
    exact stretches_pipeline hheader h.left.tail
  | .guarded _ hguarded, h => by
    rw [itemsStretches, itemsStretches, List.append_nil]
    exact stretches_guarded hguarded h.right
  | .block _ _ hheader _ hitems _, h => by
    rw [itemsStretches, itemsStretches, List.append_nil, Item.stretches, Body.stretches,
      List.forall_mem_append]
    exact ⟨stretches_pipeline hheader h.left.left.right.tail,
      stretches_items hitems h.left.right.tail⟩
  | .call _ _ _, _ => by
    rw [itemsStretches, itemsStretches, List.append_nil, Item.stretches]
    exact List.forall_mem_nil _
  | .callWith _ _ hheader _, h => by
    rw [itemsStretches, itemsStretches, List.append_nil, Item.stretches]
    exact stretches_pipeline hheader h.left.right.tail

theorem stretches_guarded {P : Span → Prop} {inLoop : Bool} {kind : Control} {ps : List Piece}
    {i : Template.Item} : Guarded inLoop kind ps i → Between P ps → ∀ s ∈ i.stretches, P s
  | .mk hheader _ hitems htail, h => by
    rw [Item.stretches, Body.stretches, List.forall_mem_append, List.forall_mem_append]
    exact ⟨⟨stretches_pipeline hheader h.left.left, stretches_items hitems h.left.right.tail⟩,
      stretches_tail htail h.right⟩

theorem stretches_tail {P : Span → Prop} {inLoop : Bool} {kind : Control} {ps : List Piece}
    {o : Template.Otherwise} : Tail inLoop kind ps o → Between P ps → ∀ s ∈ o.stretches, P s
  | .close _, _ => by
    rw [Otherwise.stretches]
    exact List.forall_mem_nil _
  | .otherwise _ hitems _, h => by
    rw [Otherwise.stretches, Body.stretches]
    exact stretches_items hitems h.left.right
  | .chained _ _ _ hguarded, h => by
    rw [Otherwise.stretches]
    exact stretches_guarded hguarded h.right.tail

theorem stretches_items {P : Span → Prop} {inLoop : Bool} {ps : List Piece}
    {is : List Template.Item} : Items inLoop ps is → Between P ps → ∀ s ∈ itemsStretches is, P s
  | .nil, _ => by
    rw [itemsStretches]
    exact List.forall_mem_nil _
  | .cons hitem hitems, h => by
    rw [itemsStretches_append, List.forall_mem_append]
    exact ⟨stretches_item hitem h.left, stretches_items hitems h.right⟩

end

theorem stretches_definition {P : Span → Prop} {ps : List Piece} {i : Template.Item}
    (hspells : Definition ps i) (h : Between P ps) : ∀ s ∈ i.stretches, P s := by
  cases hspells with
  | mk _ _ _ hitems _ =>
    rw [Item.stretches, Body.stretches]
    exact stretches_items hitems h.left.right.tail.tail

/-- The stretches of an outline go from pieces to pieces of what spells it. -/
theorem stretches_template {P : Span → Prop} {ps : List Piece} {is : List Template.Item}
    (hspells : Root ps is) (h : Between P ps) : ∀ s ∈ itemsStretches is, P s := by
  induction hspells with
  | nil => exact List.forall_mem_nil _
  | definition hdefinition _ ih =>
    rw [itemsStretches, List.forall_mem_append]
    exact ⟨stretches_definition hdefinition h.left, ih h.right⟩
  | item hitem _ ih =>
    rw [itemsStretches_append, List.forall_mem_append]
    exact ⟨stretches_item hitem h.left, ih h.right⟩

end Spelling

/-! ### Stretches of a text -/

theorem mem_of_mem_pieces {ts : List Token} {p : Piece} (h : p ∈ pieces ts) : p.token ∈ ts := by
  induction ts with
  | nil => exact absurd h List.not_mem_nil
  | cons t ts ih =>
    rw [pieces] at h
    split at h
    · exact List.mem_cons_of_mem t (ih h)
    · rcases List.mem_cons.mp h with rfl | h
      · exact List.mem_cons_self
      · exact List.mem_cons_of_mem t (ih h)

/-- From a token to a token of some lexemes, a stretch fits their characters. -/
theorem between_fits_place (ls : List Lexeme) :
    Between (Span.Fits (Scan.charsOf ls)) (pieces (Token.place 0 ls)) := by
  have htoken {p : Piece} (hp : p ∈ pieces (Token.place 0 ls)) : ∃ before chars after,
      Scan.charsOf ls = before ++ chars ++ after ∧ p.token.start = utf8Length before ∧
        p.token.stop = utf8Length (before ++ chars) := by
    obtain ⟨front, l, back, hlexemes, hp⟩ := exists_of_mem_place (mem_of_mem_pieces hp)
    refine ⟨Scan.charsOf front, l.chars, Scan.charsOf back, ?_, ?_, ?_⟩
    · rw [hlexemes, Scan.charsOf_append, Scan.charsOf_cons, List.append_assoc]
    · rw [hp, Nat.zero_add]
    · rw [hp, stop_place, Nat.zero_add, utf8Length_append]
  intro p hp q hq
  obtain ⟨before, chars, after, htext, hstart, -⟩ := htoken hp
  refine ⟨⟨before, chars ++ after, by rw [htext, List.append_assoc], hstart⟩, ?_⟩
  obtain ⟨before, chars, after, htext, -, hstop⟩ := htoken hq
  rw [htext, utf8Length_append]
  exact hstop ▸ Nat.le_add_right _ _

/-- From a token to a token of a text, a stretch fits the text. -/
theorem between_fits (text : String) :
    Between (Span.Fits text.toList) (pieces (Tokens.ofText text).tokens) := by
  have hfits := between_fits_place (Scan.scanText text.toList).lexemes
  rwa [Scan.charsOf_scanText] at hfits

/-- The stretches in an outline that is spelled by a text fit the text. -/
theorem fits_stretches {text : String} {is : List Item}
    (h : Spelling.Root (pieces (Tokens.ofText text).tokens) is) :
    ∀ s ∈ itemsStretches is, s.Fits text.toList :=
  Spelling.stretches_template h (between_fits text)

end AlertAudit.Template
