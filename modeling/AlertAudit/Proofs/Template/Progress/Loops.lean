import AlertAudit.Proofs.Rounds
import AlertAudit.Proofs.Template.Agreement
import AlertAudit.Proofs.Template.Lossless
import AlertAudit.Proofs.Template.Meaning.Items

/-!
The loops of the parser. `iterate` stops where no token has been taken, and white space that is
looked past counts as taken; so it does not say that the loops end by themselves. They do: a round
that does not leave the loop takes a token other than white space or records an error
(`Halts.advances`), and behind an error the next round leaves it. So the rounds alone come to what
`iterate` gives (`Halts.repeats`).
-/

set_option autoImplicit false

namespace AlertAudit.Template.Parser

variable {β : Type}

/-- One round of a loop whose body asks whether to go on. -/
def roundOf (step : β → Parser (Bool × β)) (x : β × State) : (β × State) ⊕ (β × State) :=
  if (step x.1 x.2).1.1 then .inl ((step x.1 x.2).1.2, (step x.1 x.2).2)
  else .inr ((step x.1 x.2).1.2, (step x.1 x.2).2)

/-- From every state a loop makes progress and comes to an end. -/
structure Halts (step : β → Parser (Bool × β)) : Prop where
  /-- A round leaves the loop, records an error or takes a token. -/
  advances : ∀ b s, (step b s).1.1 = false ∨ (s.error = none ∧ (step b s).2.error.isSome) ∨
    (step b s).2.place.ahead.length < s.place.ahead.length
  /-- Rounds follow one another as `iterate` says, which need not stop any. -/
  repeats : ∀ b s r, Repeats (roundOf step) (b, s) r ↔ r = iterate step b s

section Halts

variable {step : β → Parser (Bool × β)}

/-- What is left to do: tokens to take and an error to record. -/
def State.todo (s : State) : Nat := 2 * s.place.ahead.length + if s.error.isSome then 0 else 1

/-- A step that grows and takes a token, or fails, has less to do. -/
theorem todo_lt {s t : State} (hgrows : s.GrowsTo t)
    (h : s.error = none ∧ t.error.isSome ∨ t.place.ahead.length < s.place.ahead.length) :
    t.todo < s.todo := by
  have hle := hgrows.length_ahead_le
  rw [State.todo, State.todo]
  rcases h with ⟨hs, ht⟩ | hlt
  · rw [hs, if_pos ht, if_neg (by simp)]
    omega
  · split <;> split <;> omega

theorem halts_of_advances (hgrows : ∀ b, Grows (step b))
    (hadvances : ∀ b s, (step b s).1.1 = false ∨ (s.error = none ∧ (step b s).2.error.isSome) ∨
      (step b s).2.place.ahead.length < s.place.ahead.length)
    (hleaves : ∀ b s, (step b s).1.1 → ¬Takes (step b) s → step (step b s).1.2 (step b s).2 =
      ((false, (step b s).1.2), (step b s).2)) : Halts step := by
  refine ⟨hadvances, fun b s r ↦ ?_⟩
  refine @repeats_iff (β × State) (β × State) (roundOf step) (fun x ↦ x.2.todo)
    (fun x ↦ iterate step x.1 x.2) ?_ ?_ ?_ _ _
  · rintro ⟨b, s⟩ _ hround
    rw [roundOf] at hround
    split at hround
    next hmore =>
      obtain rfl := Sum.inl.inj hround
      refine todo_lt (hgrows b s) ((hadvances b s).resolve_left fun hlast ↦ ?_)
      exact absurd hmore (by rw [hlast]; exact Bool.false_ne_true)
    next => cases hround
  · rintro ⟨b, s⟩ _ hround
    rw [roundOf] at hround
    split at hround
    next => cases hround
    next hlast =>
      obtain rfl := Sum.inr.inj hround
      dsimp only
      rw [iterate_apply, if_neg fun h ↦ hlast h.1]
  · rintro ⟨b, s⟩ _ hround
    rw [roundOf] at hround
    split at hround
    next hmore =>
      obtain rfl := Sum.inl.inj hround
      dsimp only
      rw [iterate_apply]
      split
      next => rfl
      next hstops =>
        have hnext := hleaves b s hmore fun htakes ↦ hstops ⟨hmore, htakes⟩
        rw [iterate_apply, hnext, if_neg (by simp)]
    next => cases hround

/-- A loop in which every round takes a token or is the last one. -/
theorem halts_of_takes (hgrows : ∀ b, Grows (step b)) (htakes : ∀ b s, (step b s).1.1 →
    (step b s).2.place.ahead.length < s.place.ahead.length) : Halts step := by
  refine halts_of_advances hgrows (fun b s ↦ ?_) fun b s hmore hstays ↦ ?_
  · cases hmore : (step b s).1.1 with
    | false => exact .inl rfl
    | true => exact .inr (.inr (htakes b s hmore))
  · exact absurd (takes_of_ahead (hgrows b s) (htakes b s hmore)) hstays

/-- A loop that halts goes on exactly as its rounds ask. -/
theorem Halts.iterate_eq (h : Halts step) (b : β) (s : State) : iterate step b s =
    if (step b s).1.1 then iterate step (step b s).1.2 (step b s).2
    else ((step b s).1.2, (step b s).2) := by
  split
  next hmore =>
    have hrest := (h.repeats (step b s).1.2 (step b s).2 _).mpr rfl
    exact ((h.repeats b s _).mp (.more (if_pos hmore) hrest)).symm
  next hlast => exact ((h.repeats b s _).mp (.last (if_neg hlast))).symm

end Halts

/-! ### Commands -/

/-- What is done behind an operand, by what comes right next. -/
def behindOperand (first : Option OperandClass) : Option TokenKind →
    Parser (Bool × Option OperandClass)
  | some .whitespace => return (true, first)
  | separator => do
    unless endsCommand separator do unexpected .operand
    return (false, first)

/-- One round of the loop over the operands of a command, which goes on wherever white space comes
next. -/
def commandRound (inner : Parser Unit) (first : Option OperandClass) :
    Parser (Bool × Option OperandClass) := do
  let next ← operand inner
  if ← failed then return (false, first <|> next)
  behindOperand (first <|> next) (← adjacent)

/-- Behind an operand without white space the command is to end. -/
theorem behindOperand_of_ne {separator : Option TokenKind} (h : separator ≠ some .whitespace)
    (first : Option OperandClass) : behindOperand first separator = (do
      unless endsCommand separator do unexpected .operand
      return (false, first)) := by
  unfold behindOperand
  split
  · exact absurd rfl h
  · rfl

theorem grows_behindOperand (first : Option OperandClass) (separator : Option TokenKind) :
    Grows (behindOperand first separator) := by
  unfold behindOperand
  split
  · exact grows_pure _
  · exact grows_ite (grows_pure _) (grows_bind (grows_unexpected _) fun _ ↦ grows_pure _)

/-- Where no operand starts, only white space is looked past. -/
theorem operand_of_none {inner : Parser Unit} {s : State} (h : (operand inner s).1 = none) :
    operand inner s = (none, s.look) := by
  cases hfound : s.look.rest.head?.bind (operandOf? ·.kind) with
  | none => rw [operand_apply_of_none inner hfound]
  | some found =>
    obtain ⟨token, hhead, hoperand⟩ := Option.bind_eq_some_iff.mp hfound
    rw [operand_apply_of_some inner hhead hoperand] at h
    cases h

/-- White space that has been looked past does not come next. -/
theorem adjacent_look_ne (s : State) : s.look.rest.head?.map (·.kind) ≠ some .whitespace := by
  intro hspace
  have hhead := all_head?_look s
  obtain ⟨token, htoken, hkind⟩ := Option.map_eq_some_iff.mp hspace
  rw [htoken, Option.all_some, Token.isTrivia, hkind] at hhead
  exact absurd hhead (by decide)

/-- What follows a look for an operand. Where there is none, the look has gone past the white space,
so none comes next. -/
theorem commandTail_eq (next first : Option OperandClass) {t : State}
    (hlook : next = none → t.look = t) : (do
      if ← failed then return (false, first)
      let separator ← if next.isSome then adjacent else current
      if next.isSome && separator = some .whitespace then return (true, first)
      unless endsCommand separator do unexpected .operand
      return (false, first) : Parser (Bool × Option OperandClass)) t = (do
      if ← failed then return (false, first)
      behindOperand first (← adjacent)) t := by
  have hadjacent : adjacent t = (t.rest.head?.map (·.kind), t) := rfl
  rw [bind_apply, bind_apply, failed_apply]
  by_cases herror : t.error.isSome
  · rw [if_pos herror, if_pos herror]
  rw [if_neg herror, if_neg herror, bind_apply, hadjacent]
  cases next with
  | none =>
    have hspace := adjacent_look_ne t
    rw [hlook rfl] at hspace
    rw [behindOperand_of_ne hspace, if_neg (by simp), bind_apply, current_apply, hlook rfl]
    rfl
  | some c =>
    rw [if_pos Option.isSome_some, bind_apply, hadjacent]
    by_cases hspace : t.rest.head?.map (·.kind) = some .whitespace
    · rw [hspace]
      rfl
    · rw [behindOperand_of_ne hspace]
      dsimp only
      rw [if_neg (by simp [hspace])]

/-- A round of a command, with the operand first. -/
theorem commandStep_eq (inner : Parser Unit) (first : Option OperandClass) :
    commandStep inner first = commandRound inner first := by
  funext s
  rw [commandStep, commandRound, bind_apply, bind_apply]
  refine commandTail_eq (operand inner s).1 _ fun hnone ↦ ?_
  rw [operand_of_none hnone, look_look]

/-- The loop of a command goes on behind an operand alone. -/
theorem isSome_of_commandRound {inner : Parser Unit} {first : Option OperandClass} {s : State}
    (h : (commandRound inner first s).1.1) : (operand inner s).1.isSome := by
  rw [Option.isSome_iff_ne_none]
  intro hnone
  rw [commandRound, bind_apply, operand_of_none hnone, bind_apply, failed_apply] at h
  split at h
  next => cases h
  next =>
    have hadjacent : adjacent s.look = (s.look.rest.head?.map (·.kind), s.look) := rfl
    rw [bind_apply, hadjacent, behindOperand_of_ne (adjacent_look_ne s)] at h
    split at h
    · cases h
    · cases h

/-- An operand is found where one starts. -/
theorem isSome_operand (inner : Parser Unit) {s : State}
    (h : s.place.kind?.any (·.startsOperand)) : (operand inner s).1.isSome := by
  rw [← kind?_place] at h
  obtain ⟨kind, hkind, hstart⟩ := (Option.any_eq_true _ _).mp h
  obtain ⟨token, hhead, rfl⟩ := Option.map_eq_some_iff.mp hkind
  obtain ⟨⟨nodeKind, operandClass⟩, hoperand⟩ :=
    Option.isSome_iff_exists.mp ((startsOperand_iff token.kind).mp hstart)
  rw [operand_apply_of_some inner hhead hoperand]
  rfl

section Inner

variable {inner : Parser Unit} (hinner : Grows inner)
include hinner

/-- An operand takes a token. -/
theorem length_ahead_operand_lt {s : State} (h : (operand inner s).1.isSome) :
    (operand inner s).2.place.ahead.length < s.place.ahead.length := by
  cases hfound : s.look.rest.head?.bind (operandOf? ·.kind) with
  | none =>
    rw [operand_apply_of_none inner hfound] at h
    exact absurd h Bool.false_ne_true
  | some found =>
    obtain ⟨nodeKind, operandClass⟩ := found
    obtain ⟨token, hhead, hoperand⟩ := Option.bind_eq_some_iff.mp hfound
    rw [operand_apply_of_some inner hhead hoperand, ← place_look s]
    refine (growsTo_operandNode hinner hhead hoperand).length_ahead_lt (all_head?_look s) ?_
    refine takes_operandStages hinner (s := s.look.inside) ?_
    change s.look.look.rest ≠ []
    rw [look_look]
    intro hnil
    rw [hnil] at hhead
    exact absurd hhead (by simp)

/-- A round that finds an operand takes at least one token. -/
theorem length_ahead_commandRound_lt (first : Option OperandClass) {s : State}
    (h : (operand inner s).1.isSome) :
    (commandRound inner first s).2.place.ahead.length < s.place.ahead.length := by
  have htail (next : Option OperandClass) : Grows (do
      if ← failed then return (false, first <|> next)
      behindOperand (first <|> next) (← adjacent)) :=
    grows_bind grows_failed fun _ ↦ grows_ite (grows_pure _)
      (grows_bind grows_adjacent (grows_behindOperand _))
  rw [commandRound, bind_apply]
  exact Nat.lt_of_le_of_lt (htail _ _).length_ahead_le (length_ahead_operand_lt hinner h)

/-- Every round of a command goes on, fails or takes a token. -/
theorem halts_commandRound : Halts (commandRound inner) :=
  halts_of_takes (fun first ↦ commandStep_eq inner first ▸ grows_commandStep hinner first)
    fun first _ hmore ↦ length_ahead_commandRound_lt hinner first (isSome_of_commandRound hmore)

/-- A command that starts with an operand takes a token. -/
theorem length_ahead_command_lt {s : State} (h : s.place.kind?.any (·.startsOperand)) :
    (command inner s).2.place.ahead.length < s.place.ahead.length := by
  have hround : (commandStep inner none s.inside).2.place.ahead.length < s.place.ahead.length := by
    rw [commandStep_eq]
    exact length_ahead_commandRound_lt hinner none (s := s.inside) (isSome_operand inner h)
  have hrounds : (iterate (commandStep inner) none s.inside).2.place.ahead.length ≤
      (commandStep inner none s.inside).2.place.ahead.length := by
    rw [iterate_apply]
    split
    · exact (grows_iterate (grows_commandStep hinner) _ _).length_ahead_le
    · exact Nat.le_refl _
  exact Nat.lt_of_le_of_lt hrounds hround

/-! ### Pipelines -/

/-- Every round of a pipeline goes on, fails or takes a token. -/
theorem halts_pipelineStep (context : Context) (close : TokenKind) :
    Halts (pipelineStep inner context close) := by
  refine halts_of_takes (grows_pipelineStep hinner context close) fun classes s hmore ↦ ?_
  rw [pipelineStep, bind_apply, failed_apply] at hmore ⊢
  split at hmore
  next => cases hmore
  next herror =>
    rw [if_neg herror, bind_apply, current_apply]
    rw [bind_apply, current_apply] at hmore
    split at hmore
    next =>
      cases hfault : pipelineFault? context classes with
      | none =>
        rw [hfault] at hmore
        cases hmore
      | some cause =>
        rw [hfault] at hmore
        cases hmore
    next hclose =>
      rw [if_neg hclose]
      split at hmore
      next hstart =>
        have htail (first : Option OperandClass) : Grows (do
            if (← adjacent) = some .pipe then bump
            return (true, classes ++ first.toList)) :=
          grows_bind grows_adjacent fun _ ↦
            grows_ite (grows_bind grows_bump fun _ ↦ grows_pure _) (grows_pure _)
        rw [kind?_place, ← place_look] at hstart
        rw [if_pos (by rwa [kind?_place, ← place_look]), bind_apply, ← place_look s]
        exact Nat.lt_of_le_of_lt (htail _ _).length_ahead_le (length_ahead_command_lt hinner hstart)
      next => cases hmore

end Inner

/-! ### Declarations -/

/-- What may follow the comma behind a variable of a loop: the next one, or nothing. -/
def nextVariable (count : Nat) : Option TokenKind → Parser (Bool × Nat)
  | some .variable => return (continuesDecl (← second), count)
  | some .rightDelim | some .parenClose => return (false, count)
  | _ => do
    fail .rangeDeclaration
    return (false, count)

/-- One round of the loop over the variables of a declaration; `count` of them are behind it. -/
def declarationRound (context : Context) (count : Nat) : Parser (Bool × Nat) := do
  if ← declared then return (false, count + 1)
  if context = .header .rangeBlock ∧ count + 1 < 2 then nextVariable (count + 1) (← current)
  else
    fail (.tooManyDeclarations context)
    return (false, count + 1)

theorem grows_nextVariable (count : Nat) (kind : Option TokenKind) :
    Grows (nextVariable count kind) := by
  unfold nextVariable
  split
  · exact grows_bind grows_second fun _ ↦ grows_pure _
  · exact grows_pure _
  · exact grows_pure _
  · exact grows_bind (grows_fail _) fun _ ↦ grows_pure _

theorem grows_declarationRound (context : Context) (count : Nat) :
    Grows (declarationRound context count) := by
  refine grows_bind grows_declared fun closed ↦ grows_ite (grows_pure _) (grows_ite ?_ ?_)
  · exact grows_bind grows_current fun kind ↦ grows_nextVariable _ kind
  · exact grows_bind (grows_fail _) fun _ ↦ grows_pure _

/-- A variable is taken, where there is any token. -/
theorem length_ahead_declared_lt {s : State} (h : s.place.ahead ≠ []) :
    (declared s).2.place.ahead.length < s.place.ahead.length := by
  have htail (name : String) : Grows (do
      let mark ← current
      modify fun s ↦ { s with vars := name :: s.vars }
      bump
      return mark = some .declare || mark = some .assign : Parser Bool) :=
    grows_bind grows_current fun _ ↦ grows_bind (fun s ↦ growsTo_push s name) fun _ ↦
      grows_bind grows_bump fun _ ↦ grows_pure _
  have hbump : (bump s.look).2.place.ahead.length < s.place.ahead.length := by
    rw [place_bump, place_look, Place.tail, List.length_tail]
    exact Nat.sub_lt (List.length_pos_iff.mpr h) Nat.one_pos
  rw [declared, bind_apply, currentText_apply, bind_apply]
  exact Nat.lt_of_le_of_lt (htail _ _).length_ahead_le hbump

/-- What a round of a declaration does behind a variable. -/
theorem declarationRound_apply (context : Context) (count : Nat) (s : State) :
    declarationRound context count s =
      if (declared s).1 then ((false, count + 1), (declared s).2)
      else if context = .header .rangeBlock ∧ count + 1 < 2 then
        nextVariable (count + 1) (declared s).2.place.kind? (declared s).2.look
      else ((false, count + 1), (fail (.tooManyDeclarations context) (declared s).2).2) := by
  rw [declarationRound, bind_apply]
  split
  · rfl
  · split
    · rw [bind_apply, current_apply, kind?_place]
    · rfl

/-- A declaration goes on with a variable only. -/
theorem kind?_of_nextVariable {count : Nat} {kind : Option TokenKind} {s : State}
    (h : (nextVariable count kind s).1.1) : kind = some .variable := by
  unfold nextVariable at h
  split at h
  · rfl
  · cases h
  · cases h
  · cases h

/-- Every round of a declaration goes on, fails or takes a token. -/
theorem halts_declarationRound (context : Context) : Halts (declarationRound context) := by
  refine halts_of_takes (grows_declarationRound context) fun count s hmore ↦ ?_
  have hdeclared := (grows_declared s).length_ahead_le
  rw [declarationRound_apply] at hmore ⊢
  split at hmore
  next => cases hmore
  next hclosed =>
    rw [if_neg hclosed]
    split at hmore
    next hrange =>
      rw [if_pos hrange]
      have hahead : s.place.ahead ≠ [] := by
        intro hnil
        have hkind := kind?_of_nextVariable hmore
        rw [hnil, List.length_nil, Nat.le_zero, List.length_eq_zero_iff] at hdeclared
        rw [Place.kind?, hdeclared] at hkind
        cases hkind
      have hnext := (grows_nextVariable (count + 1) (declared s).2.place.kind?
        (declared s).2.look).length_ahead_le
      rw [place_look] at hnext
      exact Nat.lt_of_le_of_lt hnext (length_ahead_declared_lt hahead)
    next => cases hmore

/-- The second variable of a declaration is the last one. -/
theorem iterate_declarationRound_one (context : Context) (s : State) :
    (iterate (declarationRound context) 1 s).2 = if (declared s).1 then (declared s).2
      else (fail (.tooManyDeclarations context) (declared s).2).2 := by
  have hround : declarationRound context 1 s = ((false, 2), if (declared s).1 then (declared s).2
      else (fail (.tooManyDeclarations context) (declared s).2).2) := by
    rw [declarationRound_apply]
    split
    · rfl
    · rw [if_neg (by simp)]
  rw [(halts_declarationRound context).iterate_eq, hround]
  rfl

theorem secondVariable_apply (context : Context) (kind : Option TokenKind) (s : State) :
    secondVariable context kind s = ((), if (nextVariable 1 kind s).1.1 then
      (iterate (declarationRound context) 1 (nextVariable 1 kind s).2).2
      else (nextVariable 1 kind s).2) := by
  unfold secondVariable
  split
  next =>
    have hnext : nextVariable 1 (some .variable) s =
      ((continuesDecl (second s).1, 1), (second s).2) := rfl
    rw [hnext, bind_apply]
    dsimp only
    split
    next =>
      rw [iterate_declarationRound_one, bind_apply]
      split
      · rfl
      · rfl
    next => rfl
  next => rfl
  next => rfl
  next hvariable hright hclose =>
    have hnext : nextVariable 1 kind = (do fail .rangeDeclaration; return (false, 1)) := by
      unfold nextVariable
      split
      · exact absurd rfl hvariable
      · exact absurd rfl hright
      · exact absurd rfl hclose
      · rfl
    rw [hnext]
    rfl

theorem count_nextVariable (count : Nat) (kind : Option TokenKind) (s : State) :
    (nextVariable count kind s).1.2 = count := by
  unfold nextVariable
  split
  · rfl
  · rfl
  · rfl
  · rfl

/-- The variables of a declaration are read in a loop, which never gets to a third one. -/
theorem declarationBody_eq (context : Context) : declarationBody context = (do
    let _ ← iterate (declarationRound context) 0) := by
  funext s
  have hiterate : (do let _ ← iterate (declarationRound context) 0 : Parser Unit) s =
      ((), (iterate (declarationRound context) 0 s).2) := rfl
  rw [hiterate, (halts_declarationRound context).iterate_eq, declarationBody, bind_apply]
  by_cases hclosed : (declared s).1
  · have hround : declarationRound context 0 s = ((false, 1), (declared s).2) := by
      rw [declarationRound_apply, if_pos hclosed]
    rw [hround, if_pos hclosed]
    rfl
  rw [if_neg hclosed]
  by_cases hrange : context = .header .rangeBlock
  · have hround : declarationRound context 0 s =
        nextVariable 1 (declared s).2.place.kind? (declared s).2.look := by
      rw [declarationRound_apply, if_neg hclosed, if_pos ⟨hrange, Nat.one_lt_two⟩]
    rw [hround, if_pos hrange, bind_apply, current_apply, kind?_place, secondVariable_apply,
      count_nextVariable]
    split
    · rfl
    · rfl
  · have hround : declarationRound context 0 s =
        ((false, 1), (fail (.tooManyDeclarations context) (declared s).2).2) := by
      rw [declarationRound_apply, if_neg hclosed, if_neg fun h ↦ hrange h.1]
    rw [hround, if_neg hrange]
    rfl

/-! ### Items -/

/-- What takes a token behind white space takes one that is none. -/
theorem Advances.behind_look {α : Type} {p : Parser α} (hp : Grows p) {s : State}
    (h : Advances p s.look) : (p s.look).2.error.isSome ∨
      (p s.look).2.place.ahead.length < s.place.ahead.length := by
  refine h.imp id fun htakes ↦ ?_
  rw [← place_look s]
  exact (hp s.look).length_ahead_lt (all_head?_look s) htakes

/-- A loop over items, which an error or the end of the input stops. -/
theorem halts_items {step : Parser (Bool × β)} (stop : β) (hgrows : Grows step)
    (hstopped : ∀ s : State, s.error.isSome → step s = ((false, stop), s))
    (hmore : ∀ s, (step s).1.1 → s.error = none ∧ (step s).1.2 = stop ∧
      ((step s).2.error.isSome ∨ (step s).2.place.ahead.length < s.place.ahead.length)) :
    Halts fun _ ↦ step := by
  refine halts_of_advances (fun _ ↦ hgrows) (fun _ s ↦ ?_) fun _ s hgoesOn hstays ↦ ?_
  · cases hgoesOn : (step s).1.1 with
    | false => exact .inl rfl
    | true =>
      obtain ⟨herror, -, hprogress⟩ := hmore s hgoesOn
      exact .inr (hprogress.imp (⟨herror, ·⟩) id)
  · obtain ⟨-, hstop, hprogress⟩ := hmore s hgoesOn
    rw [hstop]
    refine hstopped _ (hprogress.resolve_right fun hlt ↦ hstays ?_)
    exact takes_of_ahead (hgrows s) hlt

/-- A list goes on behind an item alone. -/
theorem listItem_of_more {bodies : Bodies} {word : Option TokenKind} {s : State}
    (h : (listItem bodies word s).1.1) :
    listItem bodies word = (do item bodies; return (true, .stopped)) := by
  unfold listItem
  split
  · exact absurd h Bool.false_ne_true
  · exact absurd h Bool.false_ne_true
  · rfl

section Bodies

variable {bodies : Bodies} (hbodies : bodies.Grow)
include hbodies

theorem grows_listItem (word : Option TokenKind) : Grows (listItem bodies word) := by
  unfold listItem
  split
  · exact grows_pure _
  · exact grows_pure _
  · exact grows_bind (proceeds_item hbodies).grows fun _ ↦ grows_pure _

theorem grows_listStep : Grows (listStep bodies) :=
  grows_bind grows_stopped fun _ ↦ grows_ite (grows_bind (grows_fail _) fun _ ↦ grows_pure _)
    (grows_bind grows_actionWord (grows_listItem hbodies))

/-- Every round of a list goes on, fails or takes a token. -/
theorem halts_listStep : Halts (fun _ ↦ listStep bodies) := by
  refine halts_items .stopped (grows_listStep hbodies) (fun s herror ↦ ?_) fun s hmore ↦ ?_
  · rw [listStep, bind_apply, stopped_apply, if_pos (by rw [herror]; rfl), bind_apply,
      fail_apply_of_isSome herror]
    rfl
  · rw [listStep, bind_apply, stopped_apply] at hmore ⊢
    split at hmore
    next => cases hmore
    next hgoesOn =>
      rw [if_neg hgoesOn, bind_apply, actionWord_apply]
      rw [bind_apply, actionWord_apply] at hmore
      have herror : s.error = none := by
        rw [Bool.or_eq_true, not_or] at hgoesOn
        exact Option.not_isSome_iff_eq_none.mp hgoesOn.1
      rw [listItem_of_more hmore]
      exact ⟨herror, rfl,
        (advances_item hbodies s.look).behind_look (proceeds_item hbodies).grows⟩

/-- Every round at the top of a template goes on, fails or takes a token. -/
theorem halts_rootStep : Halts (fun _ ↦ rootStep bodies) := by
  refine halts_items () (grows_rootStep hbodies) (fun s herror ↦ ?_) fun s hmore ↦ ?_
  · rw [rootStep, bind_apply, stopped_apply, if_pos (by rw [herror]; rfl)]
    rfl
  · rw [rootStep, bind_apply, stopped_apply] at hmore ⊢
    split at hmore
    next => cases hmore
    next hgoesOn =>
      rw [if_neg hgoesOn, bind_apply, actionWord_apply]
      have herror : s.error = none := by
        rw [Bool.or_eq_true, not_or] at hgoesOn
        exact Option.not_isSome_iff_eq_none.mp hgoesOn.1
      have hword : s.place.word? ≠ none → s.look.look.rest ≠ [] := by
        rw [look_look]
        refine mt fun hnil ↦ ?_
        have hnone := actionWord_of_nil hnil
        rwa [actionWord_apply] at hnone
      have hadvances : Advances (rootItem bodies s.place.word?) s.look :=
        (rootItem_cases hbodies s.place.word? hword).imp id And.right
      exact ⟨herror, rfl, hadvances.behind_look (grows_rootItem hbodies _)⟩

end Bodies

end AlertAudit.Template.Parser
