import AlertAudit.Proofs.Labels.Interchange
import AlertAudit.Proofs.Labels.Removal
import AlertAudit.Proofs.Query.Context
import Mathlib.Data.Set.Insert

/-!
Parentheses in queries. To put a part of a query into parentheses changes nothing about the labels
of the query, wherever the part stands (`survival_fill_paren`), with one exception: where an
operator takes the name of the label that it writes, it looks for a plain string. With parentheses
around the string, which queries may have, the label is said to be removed although series carry it
(`not_forall_survival_fill_paren`).
-/

set_option autoImplicit false

namespace AlertAudit.Labels

open AlertAudit.Query

variable {e e' : Expr} {frame : Frame} {context : List Frame}

/-- The operand in the hole names the label that the operator writes. -/
def NamesLabel : Frame → Prop
  | .param op _ _ => op = .countValues
  | .arg f before _ => f.name ∈ relabelFunctions ∧ before.length = 1
  | _ => False

/-- No expression with a hole is a plain string. -/
theorem plainText?_fill (e : Expr) (frame : Frame) : plainText? (frame.fill e) = none := by
  cases frame <;> rfl

/-- What is alike is alike in any hole, if it names the same label where the operator takes a name.
-/
theorem alike_frame_fill (h : Alike e e')
    (hname : NamesLabel frame → plainText? e = plainText? e') :
    Alike (frame.fill e) (frame.fill e') := by
  cases frame with
  | subquery shift => exact h.subquery shift
  | paren => exact h.paren
  | neg => exact h.neg
  | param op grouping body => exact (Alike.refl body).aggregate hname (fun _ ↦ rfl) rfl
  | body op param grouping => exact h.aggregate (fun _ ↦ rfl) (fun _ ↦ rfl) rfl
  | lhs op m rhs => exact h.binary (.refl rhs) fun _ _ ↦ rfl
  | rhs op m lhs => exact (Alike.refl lhs).binary h fun _ _ ↦ rfl
  | arg f before after =>
    have hsame : ∀ args, List.Forall₂ Alike args args := fun args ↦
      List.forall₂_same.mpr fun a _ ↦ .refl a
    refine .call (List.rel_append (hsame before) (.cons h (hsame after))) fun hf ↦ ?_
    -- only behind one other argument does the operand name a label
    rcases before with _ | ⟨a, _ | ⟨b, before⟩⟩
    · rfl
    · exact hname ⟨hf, rfl⟩
    · rfl

/-- Only the innermost operator can take the name of a label from what fills the hole. -/
theorem alike_fill (h : Alike e e')
    (hname : ∀ frame ∈ context.head?, NamesLabel frame → plainText? e = plainText? e') :
    Alike (fill e context) (fill e' context) := by
  induction context generalizing e e' with
  | nil => exact h
  | cons frame context ih =>
    refine ih (alike_frame_fill h (hname frame rfl)) fun _ _ _ ↦ ?_
    rw [plainText?_fill, plainText?_fill]

/-- An expression in parentheses is alike to the expression itself. -/
theorem alike_paren (e : Expr) : Alike (.paren e) e :=
  ⟨rfl, by rw [survival], by rw [absence]⟩

/-- Parentheses change nothing, unless they stand around the plain name of a label. -/
theorem survival_fill_paren (e : Expr) (context : List Frame)
    (hname : ∀ frame ∈ context.head?, NamesLabel frame → plainText? e = none) :
    survival (fill (.paren e) context) = survival (fill e context) :=
  (alike_fill (alike_paren e) fun frame hframe hnames ↦ (hname frame hframe hnames).symm).survival

/-- The selector whose absence is asked for, in an operand of an operand. -/
theorem survival_fill_paren_absent :
    let foo := Expr.selector { metric := some "foo", matchers := [⟨"job", .equal, "a"⟩] } {}
    let frame := Frame.arg { name := "absent", params := [.vector] } [] []
    let context := [frame, .lhs .or {} (.selector { metric := some "bar" } {}),
      .body .sum none (some (.by ["job", "env"]))]
    (∀ f ∈ context.head?, NamesLabel f → plainText? foo = none) ∧
      survival (fill (.paren foo) context) = survival (fill foo context) ∧
      (survival (fill (.paren foo) context)).kept = .ofList ["job"] := by
  intro foo frame context
  have hname : ∀ f ∈ context.head?, NamesLabel f → plainText? foo = none := fun _ _ _ ↦ rfl
  exact ⟨hname, survival_fill_paren foo context hname, by decide⟩

/-- The series of a count of values carry the label that is named, also if parentheses stand around
its name. -/
theorem not_forall_survival_fill_paren :
    let counted (name : Expr) :=
      Expr.aggregate .countValues (some name) none (.selector { metric := some "foo" } {})
    Expr.ofText? "count_values(\"v\", foo)" = some (counted (.string "v")) ∧
      Expr.ofText? "count_values((\"v\"), foo)" = some (counted (.paren (.string "v"))) ∧
      Carries (counted (.paren (.string "v"))) "v" ∧
      (survival (counted (.string "v"))).removes "v" = none ∧
      (survival (counted (.paren (.string "v")))).removes "v" = some .aggregation ∧
      ¬∀ (e : Expr) (context : List Frame),
        survival (fill (.paren e) context) = survival (fill e context) := by
  intro counted
  have hplain : (survival (counted (.string "v"))).removes "v" = none := by decide
  have hparen : (survival (counted (.paren (.string "v")))).removes "v" = some .aggregation := by
    decide
  have hcarries : Carries (counted (.paren (.string "v"))) "v" :=
    ⟨_, .counted (.paren .string) (@Yields.selector _ _ Set.univ), Set.mem_insert _ _⟩
  have hplainTokens : Token.ofText? "count_values(\"v\", foo)" = some [.word "count_values",
      .mark .parenOpen, .string "v", .mark .comma, .word "foo", .mark .parenClose] := by
    decide +kernel
  have hplainParse : Expr.ofText? "count_values(\"v\", foo)" = some (counted (.string "v")) := by
    rw [Expr.ofText?, hplainTokens]
    with_unfolding_all rfl
  have hparenTokens : Token.ofText? "count_values((\"v\"), foo)" = some [.word "count_values",
      .mark .parenOpen, .mark .parenOpen, .string "v", .mark .parenClose, .mark .comma, .word "foo",
      .mark .parenClose] := by decide +kernel
  have hparenParse : Expr.ofText? "count_values((\"v\"), foo)" =
      some (counted (.paren (.string "v"))) := by
    rw [Expr.ofText?, hparenTokens]
    with_unfolding_all rfl
  refine ⟨hplainParse, hparenParse, hcarries, hplain, hparen, fun h ↦ ?_⟩
  have hsame : survival (counted (.paren (.string "v"))) = survival (counted (.string "v")) :=
    h (.string "v") [.param .countValues none (.selector { metric := some "foo" } {})]
  rw [hsame, hplain] at hparen
  exact absurd hparen (by simp)

end AlertAudit.Labels
