import AlertAudit.Proofs.Template.Meaning.Operand

/-!
The meaning of commands is the rule for them. A command ends in front of a bar or a closing
delimiter, with the white space in front of that looked past.
-/

set_option autoImplicit false

namespace AlertAudit.Template.Parser

open Grammar

variable {inner : Parser Unit} {depth : Nat}
  (hinner : Means State.place State.place Anywhere inner fun v _ w ↦ InnerMeaning depth v w)

/-! ### Commands -/

/-- One operand of a command. Another one may follow if white space comes behind it. -/
def CommandStep (depth : Nat) (first : Option OperandClass) (v : View)
    (r : Bool × Option OperandClass) (w : View) : Prop :=
  ∃ next, OperandMeaning depth v.place next w ∧ r.2 = (first <|> next) ∧
    if r.1 then next.isSome ∧ w.adjacent = some .whitespace else endsCommand w.adjacent

include hinner in
/-- A round takes an operand, and goes on behind white space. -/
theorem means_commandStep (first : Option OperandClass) :
    Means State.view State.view Anywhere (commandStep inner first) (CommandStep depth first) := by
  have hrest : ∀ (next : Option OperandClass) (separator : Option TokenKind),
      Means State.view State.view Anywhere (do
        if next.isSome && separator = some .whitespace then return (true, first <|> next)
        unless endsCommand separator do unexpected .operand
        return (false, first <|> next)) fun v r w ↦
          r.2 = (first <|> next) ∧ w = v ∧
            if r.1 then next.isSome ∧ separator = some .whitespace else endsCommand separator := by
    intro next separator
    refine (means_ite (means_pure _) (means_ite (means_pure _)
      ((means_unexpected _).bind_false fun _ ↦ grows_pure _))).congr fun v r w ↦ ?_
    obtain ⟨goOn, c⟩ := r
    by_cases hspace : separator = some .whitespace
    · cases next with
      | none => cases goOn <;> simp [hspace, endsCommand]
      | some next => cases goOn <;> simp [hspace, endsCommand]
    · cases hend : endsCommand separator with
      | true => cases goOn <;> simp [hspace]
      | false => cases goOn <;> simp [hspace]
  refine ((means_operand hinner).pre_view.bind fun next ↦ Means.unless_failed (grows_pure _)
    (means_ite (means_adjacent.bind_eq (hrest next)) (means_current_view.pre_view.bind_eq
      (hrest next)))).congr fun v r w ↦ ?_
  obtain ⟨goOn, c⟩ := r
  constructor
  · rintro ⟨next, u, hnext, hrest⟩
    cases next with
    | some next =>
      obtain ⟨hc, rfl, hgoOn⟩ := hrest
      exact ⟨some next, hnext, hc, hgoOn⟩
    | none =>
      obtain ⟨hc, rfl, hgoOn⟩ := hrest
      rcases hnext with ⟨-, hstarts, rfl⟩ | ⟨_, _, hsome, _⟩
      · exact ⟨none, .inl ⟨rfl, hstarts, rfl⟩, hc, hgoOn⟩
      · exact absurd hsome (by simp)
  · rintro ⟨next, hnext, hc, hgoOn⟩
    cases next with
    | some next => exact ⟨some next, w, hnext, hc, rfl, hgoOn⟩
    | none =>
      rcases hnext with ⟨-, hstarts, rfl⟩ | ⟨_, _, hsome, _⟩
      · exact ⟨none, _, .inl ⟨rfl, hstarts, rfl⟩, hc, rfl, hgoOn⟩
      · exact absurd hsome (by simp)

/-- The operands of a command up to what ends it. -/
def CommandMeaning (depth : Nat) (first : Option OperandClass) (v : Place)
    (c : Option OperandClass) (w : View) : Prop :=
  (c = first ∧ endsCommand v.kind? ∧ w = ⟨v, false⟩) ∨
  ∃ operandClass ps, Command depth v.vars ps operandClass w.place.vars ∧
    v.ahead = ps ++ w.place.ahead ∧ w.place.loops = v.loops ∧
    c = (first <|> some operandClass) ∧ w.gap = false ∧ endsCommand w.place.kind?

/-- What ends a command does not start an operand. -/
theorem not_startsOperand_of_endsCommand {kind : Option TokenKind} (h : endsCommand kind) :
    kind.any (·.startsOperand) = false := by
  unfold endsCommand at h
  split at h
  · rfl
  · rfl
  · rfl
  · exact absurd h Bool.false_ne_true

/-- The first token of a command starts an operand. -/
theorem startsOperand_of_command {vars vars' : List String} {ps : List Piece}
    {c : OperandClass} (h : Command depth vars ps c vars') :
    ∃ p r, ps = p :: r ∧ p.kind.startsOperand := by
  cases h with
  | last hoperand => exact startsOperand_of_operand hoperand
  | more hoperand _ =>
    obtain ⟨p, r, rfl, hstart⟩ := startsOperand_of_operand hoperand
    exact ⟨p, _, rfl, hstart⟩

/-- Behind the last operand stands what ends the command, with no white space in front. -/
theorem gap_of_endsCommand {w : View} (h : endsCommand w.adjacent) :
    w.gap = false ∧ endsCommand w.place.kind? := by
  obtain ⟨place, gap⟩ := w
  cases gap with
  | true => exact absurd h Bool.false_ne_true
  | false => exact ⟨rfl, h⟩

/-- The rounds of a command take operands as the rule says. -/
theorem commandMeaning_of_rounds {first : Option OperandClass} {v w : View}
    {c : Option OperandClass} (h : Rounds (CommandStep depth) first v c w) :
    CommandMeaning depth first v.place c w := by
  induction h with
  | @last first c v w hstep =>
    obtain ⟨next, hnext, hc, hadjacent⟩ := hstep
    obtain ⟨hgap, hends⟩ := gap_of_endsCommand hadjacent
    rcases hnext with ⟨rfl, -, rfl⟩ | ⟨operandClass, ps, rfl, hrule, hahead, hloops, -⟩
    · exact .inl ⟨by simpa using hc, hends, rfl⟩
    · exact .inr ⟨operandClass, ps, .last hrule, hahead, hloops, hc, hgap, hends⟩
  | @more first c d u v w hstep hrounds ih =>
    obtain ⟨next, hnext, hc, hsome, hspace⟩ := hstep
    rcases hnext with ⟨rfl, -, -⟩ | ⟨operandClass, ps, rfl, hrule, hahead, hloops, -⟩
    · exact absurd hsome (by simp)
    · simp only at hc
      subst hc
      rcases ih with ⟨rfl, hends, rfl⟩ | ⟨later, qs, hcommand, hqs, hloops', rfl, hgap, hends⟩
      · exact .inr ⟨operandClass, ps, .last hrule, hahead, hloops, rfl, rfl, hends⟩
      · have hspaced : u.gap = true := by
          obtain ⟨p, r, rfl, hstart⟩ := startsOperand_of_command hcommand
          by_contra hgap
          rw [View.adjacent, if_neg hgap, Place.kind?, hqs] at hspace
          rw [show p.kind = .whitespace from Option.some.inj hspace] at hstart
          exact absurd hstart (by decide)
        rw [hspaced] at hrule
        refine .inr ⟨operandClass, ps ++ qs, .more hrule hcommand, ?_, hloops'.trans hloops, ?_,
          hgap,
          hends⟩
        · rw [hahead, hqs, List.append_assoc]
        · cases first <;> rfl

/-- The operands of a command are taken round by round. -/
theorem rounds_of_command {first : Option OperandClass} {v w : View} {ps : List Piece}
    {operandClass : OperandClass} (hcommand : Command depth v.place.vars ps operandClass
      w.place.vars)
    (hahead : v.place.ahead = ps ++ w.place.ahead) (hloops : w.place.loops = v.place.loops)
    (hgap : w.gap = false) (hends : endsCommand w.place.kind?) :
    Rounds (CommandStep depth) first v (first <|> some operandClass) w := by
  obtain ⟨⟨ahead, vars, loops⟩, gap⟩ := w
  obtain rfl : gap = false := hgap
  induction hlength : ps.length using Nat.strongRecOn generalizing first v ps operandClass with
  | ind length ih =>
    cases hcommand with
    | @last _ _ _ _ _ spaced hoperand =>
      cases spaced with
      | true =>
        have hstep : CommandStep depth first v (true, first <|> some operandClass)
            ⟨⟨ahead, vars, loops⟩, true⟩ :=
          ⟨some operandClass, .inr ⟨_, _, rfl, hoperand, hahead, hloops, by simp [View.adjacent]⟩,
            rfl, rfl, rfl⟩
        refine .more hstep (.last ⟨none, .inl ⟨rfl, ?_, rfl⟩, ?_, hends⟩)
        · exact not_startsOperand_of_endsCommand hends
        · cases first <;> rfl
      | false =>
        refine .last ⟨some operandClass, .inr ⟨_, _, rfl, hoperand, hahead, hloops, ?_⟩, rfl, hends⟩
        intro hfield
        rw [show Place.kind? _ = some .field from hfield] at hends
        exact absurd hends (by decide)
    | @more _ _ vars' _ ps qs _ later hoperand hcommand =>
      have hstep : CommandStep depth first v (true, first <|> some operandClass)
          ⟨⟨qs ++ ahead, vars', v.place.loops⟩, true⟩ := by
        refine ⟨some operandClass, .inr ⟨_, _, rfl, hoperand, ?_, rfl, by simp [View.adjacent]⟩,
          rfl, rfl, rfl⟩
        rw [hahead, List.append_assoc]
      have hfewer : qs.length < length := by
        obtain ⟨p, r, rfl, -⟩ := startsOperand_of_operand hoperand
        rw [← hlength, List.length_append, List.length_cons]
        omega
      have hrounds : Rounds (CommandStep depth) (first <|> some operandClass)
          ⟨⟨qs ++ ahead, vars', v.place.loops⟩, true⟩
          ((first <|> some operandClass) <|> some later) ⟨⟨ahead, vars, loops⟩, false⟩ :=
        ih _ hfewer hcommand rfl hloops rfl
      refine .more hstep ?_
      cases first <;> exact hrounds

/-- The rounds of a command are the rule for commands. -/
theorem commandMeaning_iff {first : Option OperandClass} {v w : View} {c : Option OperandClass} :
    Rounds (CommandStep depth) first v c w ↔ CommandMeaning depth first v.place c w := by
  refine ⟨commandMeaning_of_rounds, ?_⟩
  rintro (⟨rfl, hends, rfl⟩ | ⟨operandClass, ps, hcommand, hahead, hloops, rfl, hgap, hends⟩)
  · refine .last ⟨none, .inl ⟨rfl, not_startsOperand_of_endsCommand hends, rfl⟩, by simp, ?_⟩
    exact hends
  · exact rounds_of_command hcommand hahead hloops hgap hends

/-- Where a command goes on, it has taken an operand. -/
theorem length_lt_of_commandStep {first c : Option OperandClass} {v w : View}
    (h : CommandStep depth first v (true, c) w) :
    w.place.ahead.length < v.place.ahead.length := by
  obtain ⟨next, hnext, -, hsome, -⟩ := h
  rcases hnext with ⟨rfl, -, -⟩ | ⟨_, ps, -, hrule, hahead, -, -⟩
  · exact absurd hsome (by simp)
  · obtain ⟨p, r, rfl, -⟩ := startsOperand_of_operand hrule
    rw [hahead, List.length_append, List.length_cons]
    omega

include hinner in
/-- A command is parsed as the rule says. -/
theorem means_command : Means State.place State.view Anywhere (command inner)
    fun v c w ↦ CommandMeaning depth none v c w := by
  rw [command_eq]
  have hstep := means_commandStep hinner
  refine Means.node blind_place blind_view blind_anywhere rfl rfl (Means.of_pre_view ?_)
  refine (Means.iterate hstep (fun _ _ _ _ ↦ trivial) (fun first s c _ h ↦ ?_) none).congr
    fun v c w ↦ commandMeaning_iff
  exact takes_of_ahead ((hstep first).grows s) (length_lt_of_commandStep h)

end AlertAudit.Template.Parser
