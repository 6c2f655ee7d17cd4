import AlertAudit.Proofs.Template.Growth.Productions
import AlertAudit.Proofs.Template.Meaning

/-!
Where two parsers do the same. Parsers that agree in some states (`AgreeOn`) are put together to
parsers that agree in them, if growth does not lead out of these states (`Stable`). What stands
between parentheses is read behind the token that opens them, so pipelines agree wherever their
parsers for it agree with a token less in front (`agreeOn_pipeline`).
-/

set_option autoImplicit false

namespace AlertAudit.Template.Parser

variable {α β : Type}

/-- The two parsers do the same in the states in `C`. -/
def AgreeOn (C : State → Prop) (p q : Parser α) : Prop := ∀ s, C s → p s = q s

/-- Neither growth nor the start of a node leads out of `C`. -/
structure Stable (C : State → Prop) : Prop where
  grows : ∀ s t : State, s.GrowsTo t → C s → C t
  inside : ∀ s : State, C s → C s.inside

/-- The states in `C` in front of which there are fewer tokens than in front of another one. -/
def Beyond (C : State → Prop) (t : State) : Prop :=
  C t ∧ ∃ s, C s ∧ t.place.ahead.length < s.place.ahead.length

theorem Stable.beyond {C : State → Prop} (hC : Stable C) : Stable (Beyond C) where
  grows := by
    rintro t u hgrows ⟨ht, s, hs, hlt⟩
    exact ⟨hC.grows t u hgrows ht, s, hs, Nat.lt_of_le_of_lt hgrows.length_ahead_le hlt⟩
  inside := fun t ⟨ht, hs⟩ ↦ ⟨hC.inside t ht, hs⟩

theorem stable_short (bound : Nat) : Stable (Short bound) where
  grows := fun _ _ hgrows hs ↦ Nat.le_trans hgrows.length_ahead_le hs
  inside := fun _ hs ↦ hs

section Rules

variable {C : State → Prop} {p q : Parser α}

theorem agreeOn_refl (p : Parser α) : AgreeOn C p p := fun _ _ ↦ rfl

theorem AgreeOn.mono {D : State → Prop} (h : AgreeOn C p q) (hle : ∀ s, D s → C s) :
    AgreeOn D p q :=
  fun s hs ↦ h s (hle s hs)

/-- One after the other. What follows need only agree in the states that the first part leads to. -/
theorem AgreeOn.bind_on {D : α → State → Prop} {f g : α → Parser β} (h : AgreeOn C p q)
    (hf : ∀ a, AgreeOn (D a) (f a) (g a)) (hD : ∀ s, C s → D (p s).1 (p s).2) :
    AgreeOn C (p >>= f) (q >>= g) := by
  intro s hs
  rw [bind_apply, bind_apply, ← h s hs]
  exact hf _ _ (hD s hs)

theorem AgreeOn.then_same {f : α → Parser β} (h : AgreeOn C p q) :
    AgreeOn C (p >>= f) (q >>= f) :=
  h.bind_on (D := fun _ _ ↦ True) (fun _ ↦ agreeOn_refl _) fun _ _ ↦ trivial

theorem AgreeOn.ite {c : Prop} [Decidable c] {p' q' : Parser α} (h : AgreeOn C p q)
    (h' : AgreeOn C p' q') : AgreeOn C (if c then p else p') (if c then q else q') := by
  split
  · exact h
  · exact h'

theorem AgreeOn.node (hC : ∀ s : State, C s → C s.inside) (kind : NodeKind) (h : AgreeOn C p q) :
    AgreeOn C (node kind p) (node kind q) := by
  intro s hs
  have hinside : p { s.settle with built := [] } = q { s.settle with built := [] } :=
    h s.inside (hC s hs)
  rw [node_apply, node_apply, hinside]

section Stable

variable (hC : Stable C)
include hC

theorem AgreeOn.bind {f g : α → Parser β} (h : AgreeOn C p q) (hp : Grows p)
    (hf : ∀ a, AgreeOn C (f a) (g a)) : AgreeOn C (p >>= f) (q >>= g) :=
  h.bind_on hf fun s hs ↦ hC.grows s _ (hp s) hs

/-- What follows the same first part. -/
theorem AgreeOn.after {f g : α → Parser β} (hp : Grows p) (hf : ∀ a, AgreeOn C (f a) (g a)) :
    AgreeOn C (p >>= f) (p >>= g) :=
  (agreeOn_refl p).bind hC hp hf

theorem AgreeOn.iterate {step step' : β → Parser (Bool × β)} (hstep : ∀ b, Grows (step b))
    (h : ∀ b, AgreeOn C (step b) (step' b)) (b : β) :
    AgreeOn C (iterate step b) (iterate step' b) := by
  intro s hs
  induction hlength : s.rest.length using Nat.strongRecOn generalizing b s with
  | ind length ih =>
    rw [iterate_apply step, iterate_apply step', ← h b s hs]
    split
    next hmore => exact ih _ (hlength ▸ hmore.2) _ _ (hC.grows s _ (hstep b s) hs) rfl
    next => rfl

end Stable

end Rules

/-! ### Pipelines -/

/-- A token that is taken where white space does not come first is no white space. -/
theorem State.GrowsTo.length_ahead_lt {s t : State} (h : s.GrowsTo t)
    (hhead : s.rest.head?.all (!·.isTrivia)) (htakes : t.rest.length < s.rest.length) :
    t.place.ahead.length < s.place.ahead.length := by
  obtain ⟨taken, htaken⟩ := h.rest
  cases taken with
  | nil =>
    rw [← htaken] at htakes
    exact absurd htakes (Nat.lt_irrefl _)
  | cons token taken =>
    rw [← htaken, List.cons_append, List.head?_cons, Option.all_some, Bool.not_eq_true'] at hhead
    rw [State.place, State.place, ← htaken, List.cons_append, pieces, hhead]
    exact Nat.lt_succ_of_le (length_pieces_append taken t.rest)

section Inner

variable {C : State → Prop} (hC : Stable C) {inner inner' : Parser Unit}
include hC

theorem agreeOn_operand (h : AgreeOn (Beyond C) inner inner') :
    AgreeOn C (operand inner) (operand inner') := by
  intro s hs
  cases hfound : s.look.rest.head?.bind (operandOf? ·.kind) with
  | none => rw [operand_apply_of_none inner hfound, operand_apply_of_none inner' hfound]
  | some found =>
    obtain ⟨nodeKind, operandClass⟩ := found
    obtain ⟨token, hhead, hoperand⟩ := Option.bind_eq_some_iff.mp hfound
    have hbody : AgreeOn (Beyond C) (operandBody inner token.kind)
        (operandBody inner' token.kind) :=
      h.then_same.ite (agreeOn_refl _)
    have hstages : AgreeOn (Beyond C)
        (do operandBody inner token.kind; operandFields operandClass token.text)
        (do operandBody inner' token.kind; operandFields operandClass token.text) :=
      hbody.then_same
    have hlook : C s.look := hC.grows s _ (growsTo_look s) hs
    -- the first token of the operand is taken before the parenthesis is read
    have hahead : Beyond C (operandHead token.kind token.text s.look.inside).2 := by
      have hinside := hC.inside _ hlook
      have hhead' := grows_operandHead token.kind token.text s.look.inside
      refine ⟨hC.grows _ _ hhead' hinside, _, hinside, ?_⟩
      refine hhead'.length_ahead_lt (all_head?_look s) (takes_operandHead ?_)
      change s.look.look.rest ≠ []
      rw [look_look]
      intro hnil
      rw [hnil] at hhead
      exact absurd hhead (by simp)
    have hsame : operandStages inner token.kind operandClass token.text s.look.inside =
        operandStages inner' token.kind operandClass token.text s.look.inside := by
      rw [operandStages, operandStages, bind_apply, bind_apply]
      exact hstages _ hahead
    rw [operand_apply_of_some inner hhead hoperand, operand_apply_of_some inner' hhead hoperand,
      node_apply, node_apply, ← State.inside, hsame]

variable (hgrows : Grows inner) (h : AgreeOn (Beyond C) inner inner')
include hgrows h

theorem agreeOn_command : AgreeOn C (command inner) (command inner') :=
  (AgreeOn.iterate hC (grows_commandStep hgrows)
    (fun _ ↦ (agreeOn_operand hC h).then_same) none).node hC.inside .command

theorem agreeOn_pipelineStep (context : Context) (close : TokenKind)
    (classes : List OperandClass) : AgreeOn C (pipelineStep inner context close classes)
      (pipelineStep inner' context close classes) := by
  refine .after hC grows_failed fun _ ↦ (agreeOn_refl _).ite ?_
  refine .after hC grows_current fun _ ↦ (agreeOn_refl _).ite (.ite ?_ (agreeOn_refl _))
  exact (agreeOn_command hC hgrows h).then_same

theorem agreeOn_pipeline (context : Context) (close : TokenKind) :
    AgreeOn C (pipeline inner context close) (pipeline inner' context close) := by
  have hsteps := grows_pipelineStep hgrows context close
  rw [pipeline_eq, pipeline_eq]
  refine .after hC grows_failed fun _ ↦ (agreeOn_refl _).ite (.node hC.inside .pipeline ?_)
  refine .after hC (grows_declaration context) fun _ ↦ ?_
  exact (AgreeOn.iterate hC hsteps (agreeOn_pipelineStep hC hgrows h context close) []).then_same

end Inner

end AlertAudit.Template.Parser
