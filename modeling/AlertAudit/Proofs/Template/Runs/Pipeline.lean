import AlertAudit.Proofs.Template.Meaning.Block
import AlertAudit.Proofs.Template.Runs.Operand

/-!
Runs over pipelines, along what spells them. An operand, a command and the stages behind it are
read up to the first token that cannot belong to them, so what comes right behind is part of each
statement.
-/

set_option autoImplicit false

namespace AlertAudit.Template.Parser

open Outline

variable {inner : Parser Unit} {vars : List String} {loops : Nat}

/-! ### Commands -/

section Commands

variable {ahead r : List Piece} {vars' : List String} {o : Template.Operand} {c : OperandClass}
  {spaced : Bool} {v : View}

/-- An operand with white space behind it. -/
theorem runs_commandStep_more (first : Option OperandClass)
    (h : Runs (operand inner) v (some c) [.operand o] ⟨⟨r, vars', loops⟩, true⟩) :
    Runs (commandStep inner first) v (true, first <|> some c) [.operand o]
      ⟨⟨r, vars', loops⟩, true⟩ :=
  h.bind (.unless_failed (.ite_left rfl ((runs_adjacent rfl).bind (.ite_left rfl (runs_pure _ _)))))

/-- The last operand, with no white space behind it. -/
theorem runs_commandStep_last (first : Option OperandClass)
    (h : Runs (operand inner) v (some c) [.operand o] ⟨⟨r, vars', loops⟩, false⟩)
    (hends : endsCommand (r.head?.map Piece.kind)) :
    Runs (commandStep inner first) v (false, first <|> some c) [.operand o]
      ⟨⟨r, vars', loops⟩, false⟩ := by
  have hspace : ¬((some c).isSome && decide (r.head?.map Piece.kind = some .whitespace)) := by
    intro h
    rw [show r.head?.map Piece.kind = some .whitespace by simpa using h] at hends
    exact Bool.false_ne_true hends
  exact h.bind (.unless_failed (.ite_left rfl ((runs_adjacent rfl).bind
    (.ite_right hspace (.ite_left hends (runs_pure _ _))))))

/-- No operand starts in front of what ends a command. -/
theorem runs_operand_none (hends : endsCommand (r.head?.map Piece.kind)) (gap : Bool) :
    Runs (operand inner) ⟨⟨r, vars, loops⟩, gap⟩ none [] ⟨⟨r, vars, loops⟩, false⟩ := by
  intro s hs hspaces hv
  have hnone : s.look.rest.head?.bind (operandOf? ·.kind) = none := by
    have hkind : s.look.rest.head?.map (·.kind) = r.head?.map Piece.kind := by
      rw [kind?_place]
      exact congrArg (·.place.kind?) hv
    have hstarts := not_startsOperand_of_endsCommand hends
    rw [← hkind] at hstarts
    cases hhead : s.look.rest.head? with
    | none => rfl
    | some token =>
      rw [hhead, Option.map_some, Option.any_some] at hstarts
      have hiff := startsOperand_iff token.kind
      rw [hstarts] at hiff
      simpa using hiff
  have hlook := runs_of_look (p := fun s ↦ (none, s.look))
    (f := fun _ ↦ (none : Option OperandClass))
    (fun _ ↦ rfl) ⟨r, vars, loops⟩ gap
  exact (hlook s hs hspaces hv).congr (operand_apply_of_none inner hnone)

/-- The end of a command behind white space. -/
theorem runs_commandStep_end (first : Option OperandClass) (gap : Bool)
    (hends : endsCommand (r.head?.map Piece.kind)) :
    Runs (commandStep inner first) ⟨⟨r, vars, loops⟩, gap⟩ (false, first) []
      ⟨⟨r, vars, loops⟩, false⟩ := by
  have hfirst : (first <|> none) = first := by cases first <;> rfl
  have hcurrent := runs_current (v := ⟨r, vars, loops⟩) (k := r.head?.map Piece.kind) rfl false
  have hstep : Runs (commandStep inner first) ⟨⟨r, vars, loops⟩, gap⟩ (false, first <|> none) []
      ⟨⟨r, vars, loops⟩, false⟩ :=
    (runs_operand_none hends gap).bind (.unless_failed (.ite_right Bool.false_ne_true
      (hcurrent.bind (.ite_right Bool.false_ne_true (.ite_left hends (runs_pure _ _))))))
  rwa [hfirst] at hstep

end Commands

/-! ### Declarations -/

section Declarations

variable {r : List Piece}

/-- A variable and the mark behind it. -/
theorem runs_declared (x mark : Piece) (r : List Piece) (vars : List String) (loops : Nat)
    (gap : Bool) :
    Runs declared ⟨⟨x :: mark :: r, vars, loops⟩, gap⟩ (closesDecl (some mark.kind))
      [.token x.token, .token mark.token] ⟨⟨r, x.text :: vars, loops⟩, mark.spaced⟩ :=
  (runs_currentText _ gap).bind ((runs_bump x (mark :: r) vars loops false).bind
    ((runs_current (k := some mark.kind) rfl x.spaced).bind
      ((runs_push x.text (mark :: r) vars loops false).bind
        ((runs_bump mark r (x.text :: vars) loops false).bind (runs_pure _ _)))))

/-- A declaration shows its variables, and whether it assigns. -/
theorem nodePart_decl (ts : List Token) : nodePart .decl (ts.map .token) =
    .decl ⟨ts.filter (·.kind = .variable), !(ts.filter (·.kind = .assign)).isEmpty⟩ := by
  rw [nodePart, assemble, Outline.tokensOf, Outline.tokensOf, filterMap_token?]

/-- Where a declaration starts. -/
theorem Runs.decl {context : Context} {x mark : Piece} {parts : List Part} {w : View}
    (hx : x.kind = .variable) (hmark : continuesDecl (some mark.kind))
    (h : Runs (declarationBody context) ⟨⟨x :: mark :: r, vars, loops⟩, false⟩ () parts w)
    (gap : Bool) :
    Runs (declaration context) ⟨⟨x :: mark :: r, vars, loops⟩, gap⟩ () [nodePart .decl parts]
      w := by
  have hstart : decide (some x.kind = some .variable) && continuesDecl (some mark.kind) := by
    rw [hx, hmark]
    rfl
  rw [declaration_eq]
  exact (runs_current (k := some x.kind) rfl gap).bind
    ((runs_second (k := some mark.kind) rfl false).bind (.ite_left hstart (h.node .decl rfl rfl)))

/-- Both marks end a declaration. -/
theorem closesDecl_of_mark {mark : Piece} (h : mark.kind = .declare ∨ mark.kind = .assign) :
    closesDecl (some mark.kind) := by
  rcases h with h | h
  · rw [h]; rfl
  · rw [h]; rfl

/-- What a pipeline starts with is no declaration unless it is spelled as one. -/
def NoDecl (r : List Piece) : Prop :=
  ∀ p rest, r = p :: rest → p.kind = .variable → continuesDecl (rest.head?.map Piece.kind) = false

/-- A run over a declaration, if one is spelled. -/
theorem runs_declaration {context : Context} {inRange : Bool} {next : Option TokenKind}
    {ds : List Piece} {decl : Option Decl}
    (hcontext : inRange = decide (context = .header .rangeBlock))
    (hdecl : Spelling.Declares inRange next ds decl) (hnext : next = r.head?.map Piece.kind)
    (hnone : NoDecl r) (vars : List String) (loops : Nat) (gap : Bool) :
    ∃ gap', Runs (declaration context) ⟨⟨ds ++ r, vars, loops⟩, gap⟩ ()
      (decl.map Part.decl).toList ⟨⟨r, Decl.enter decl vars, loops⟩, gap'⟩ := by
  cases hdecl with
  | none =>
    have hstart : ¬(decide (r.head?.map Piece.kind = some .variable) &&
        continuesDecl (r.tail.head?.map Piece.kind)) := by
      rw [Bool.and_eq_true, decide_eq_true_eq]
      rintro ⟨hkind, hcontinues⟩
      cases r with
      | nil => exact absurd hkind (by simp)
      | cons p rest =>
        rw [List.tail_cons, hnone p rest rfl (Option.some.inj hkind)] at hcontinues
        exact Bool.false_ne_true hcontinues
    refine ⟨false, ?_⟩
    rw [declaration_eq]
    exact (runs_current (v := ⟨r, vars, loops⟩) rfl gap).bind
      ((runs_second (v := ⟨r, vars, loops⟩) rfl false).bind (.ite_right hstart (runs_pure () _)))
  | @one x mark hx hmark =>
    have hcloses := closesDecl_of_mark hmark
    have hbody : Runs (declarationBody context) ⟨⟨x :: mark :: r, vars, loops⟩, false⟩ ()
        ([x, mark].map fun p ↦ .token p.token) ⟨⟨r, x.text :: vars, loops⟩, mark.spaced⟩ :=
      (runs_declared x mark r vars loops false).bind (.ite_left hcloses (runs_pure () _))
    have hpart : nodePart .decl ([x, mark].map fun p ↦ .token p.token) =
        .decl ⟨[x.token], mark.kind = .assign⟩ := by
      refine (nodePart_decl [x.token, mark.token]).trans ?_
      unfold Piece.kind at hx hmark ⊢
      rcases hmark with hmark | hmark <;> simp [hx, hmark]
    refine ⟨mark.spaced, ?_⟩
    have hruns := Runs.decl hx ((continuesDecl_iff _).mpr (.inl hcloses)) hbody gap
    rwa [hpart] at hruns
  | @two x comma y mark hrange hx hcomma hy hmark =>
    have hcloses := closesDecl_of_mark hmark
    have hopen : ¬closesDecl (some comma.kind) := by
      rw [hcomma]
      exact Bool.false_ne_true
    have hsecond : Runs (secondVariable context (some y.kind))
        ⟨⟨y :: mark :: r, x.text :: vars, loops⟩, false⟩ ()
        [.token y.token, .token mark.token] ⟨⟨r, y.text :: x.text :: vars, loops⟩,
          mark.spaced⟩ := by
      rw [hy]
      exact (runs_second (k := some mark.kind) rfl false).bind
        (.ite_left ((continuesDecl_iff _).mpr (.inl hcloses))
          ((runs_declared y mark r _ loops false).bind (.ite_left hcloses (runs_pure () _))))
    have hbody : Runs (declarationBody context)
        ⟨⟨x :: comma :: y :: mark :: r, vars, loops⟩, false⟩ ()
        ([x, comma, y, mark].map fun p ↦ .token p.token)
        ⟨⟨r, y.text :: x.text :: vars, loops⟩, mark.spaced⟩ :=
      (runs_declared x comma (y :: mark :: r) vars loops false).bind (.ite_right hopen
        (.ite_left (of_decide_eq_true (hcontext.symm.trans hrange))
          ((runs_current (k := some y.kind) rfl comma.spaced).bind hsecond)))
    have hpart : nodePart .decl ([x, comma, y, mark].map fun p ↦ .token p.token) =
        .decl ⟨[x.token, y.token], mark.kind = .assign⟩ := by
      refine (nodePart_decl [x.token, comma.token, y.token, mark.token]).trans ?_
      unfold Piece.kind at hx hcomma hy hmark ⊢
      rcases hmark with hmark | hmark <;> simp [hx, hcomma, hy, hmark]
    refine ⟨mark.spaced, ?_⟩
    have hruns := Runs.decl hx
      ((continuesDecl_iff _).mpr (.inr (congrArg some hcomma))) hbody gap
    rwa [hpart] at hruns
  | @index x comma hrange hx hcomma hvariable =>
    have hopen : ¬closesDecl (some comma.kind) := by
      rw [hcomma]
      exact Bool.false_ne_true
    cases r with
    | nil => exact absurd (hnext.symm.trans hvariable) (by simp)
    | cons y rest =>
      have hy : y.kind = .variable := Option.some.inj (hnext.symm.trans hvariable)
      have hsecond : Runs (secondVariable context (some y.kind))
          ⟨⟨y :: rest, x.text :: vars, loops⟩, false⟩ () []
          ⟨⟨y :: rest, x.text :: vars, loops⟩, false⟩ := by
        rw [hy]
        refine (runs_second (k := rest.head?.map Piece.kind) rfl false).bind
          (.ite_right ?_ (runs_pure () _))
        rw [hnone y rest rfl hy]
        exact Bool.false_ne_true
      have hbody : Runs (declarationBody context) ⟨⟨x :: comma :: y :: rest, vars, loops⟩, false⟩ ()
          ([x, comma].map fun p ↦ .token p.token)
          ⟨⟨y :: rest, x.text :: vars, loops⟩, false⟩ :=
        (runs_declared x comma (y :: rest) vars loops false).bind (.ite_right hopen
          (.ite_left (of_decide_eq_true (hcontext.symm.trans hrange))
            ((runs_current (k := some y.kind) rfl comma.spaced).bind hsecond)))
      have hpart : nodePart .decl ([x, comma].map fun p ↦ .token p.token) =
          .decl ⟨[x.token], false⟩ := by
        refine (nodePart_decl [x.token, comma.token]).trans ?_
        unfold Piece.kind at hx hcomma
        simp [hx, hcomma]
      refine ⟨false, ?_⟩
      have hruns := Runs.decl hx
        ((continuesDecl_iff _).mpr (.inr (congrArg some hcomma))) hbody gap
      rwa [hpart] at hruns

end Declarations

/-! ### Stages -/

section Stages

variable {context : Context} {close : TokenKind} {classes : List OperandClass} {r : List Piece}

/-- The end of a pipeline. -/
theorem runs_pipelineStep_end (inner : Parser Unit) (vars : List String) (loops : Nat)
    (hclose : r.head?.map Piece.kind = some close)
    (hfault : pipelineFault? context classes = none) (gap : Bool) :
    Runs (pipelineStep inner context close classes) ⟨⟨r, vars, loops⟩, gap⟩ (false, classes) []
      ⟨⟨r, vars, loops⟩, false⟩ := by
  refine .unless_failed ((runs_current (v := ⟨r, vars, loops⟩) hclose gap).bind (.ite_left rfl ?_))
  rw [hfault]
  exact runs_pure _ _

variable {p : Piece} {ahead : List Piece} {vars' : List String} {c : OperandClass}
  {os : List Template.Operand}

/-- A command with what is done behind it. -/
theorem Runs.pipelineStep {parts : List Part} {u w : View} (hstart : p.kind.startsOperand)
    (hends : ClosesPipeline close)
    (hcommand : Runs (command inner) ⟨⟨p :: ahead, vars, loops⟩, false⟩ (some c) [.command os] u)
    (hbar : Runs (do
      if (← adjacent) = some .pipe then bump
      return (true, classes ++ [c])) u (true, classes ++ [c]) parts w) (gap : Bool) :
    Runs (pipelineStep inner context close classes) ⟨⟨p :: ahead, vars, loops⟩, gap⟩
      (true, classes ++ [c]) ([.command os] ++ parts) w := by
  have hopen : some p.kind ≠ some close := by
    intro h
    rw [Option.some.inj h] at hstart
    rcases hends with rfl | rfl
    · exact Bool.false_ne_true hstart
    · exact Bool.false_ne_true hstart
  exact .unless_failed ((runs_current (k := some p.kind) rfl gap).bind
    (.ite_right hopen (.ite_left hstart (hcommand.bind hbar))))

/-- A command in front of the end of the pipeline. -/
theorem runs_pipelineStep_last (context : Context) (classes : List OperandClass)
    (hstart : p.kind.startsOperand) (hends : ClosesPipeline close)
    (hcommand : Runs (command inner) ⟨⟨p :: ahead, vars, loops⟩, false⟩ (some c) [.command os]
      ⟨⟨r, vars', loops⟩, false⟩) (hclose : r.head?.map Piece.kind = some close) (gap : Bool) :
    Runs (pipelineStep inner context close classes) ⟨⟨p :: ahead, vars, loops⟩, gap⟩
      (true, classes ++ [c]) [.command os] ⟨⟨r, vars', loops⟩, false⟩ := by
  have hbar : (some close : Option TokenKind) ≠ some .pipe := by
    rcases hends with rfl | rfl
    · decide
    · decide
  have hadjacent : View.adjacent ⟨⟨r, vars', loops⟩, false⟩ = some close := hclose
  exact Runs.pipelineStep hstart hends hcommand
    ((runs_adjacent hadjacent).bind (.ite_right hbar (runs_pure _ _))) gap

/-- A command with a bar behind it. -/
theorem runs_pipelineStep_bar (context : Context) (classes : List OperandClass) {bar : Piece}
    (hstart : p.kind.startsOperand)
    (hends : ClosesPipeline close)
    (hcommand : Runs (command inner) ⟨⟨p :: ahead, vars, loops⟩, false⟩ (some c) [.command os]
      ⟨⟨bar :: r, vars', loops⟩, false⟩) (hbar : bar.kind = .pipe) (gap : Bool) :
    Runs (pipelineStep inner context close classes) ⟨⟨p :: ahead, vars, loops⟩, gap⟩
      (true, classes ++ [c]) [.command os, .token bar.token]
      ⟨⟨r, vars', loops⟩, bar.spaced⟩ := by
  have hadjacent : View.adjacent ⟨⟨bar :: r, vars', loops⟩, false⟩ = some .pipe :=
    congrArg some hbar
  exact Runs.pipelineStep hstart hends hcommand ((runs_adjacent hadjacent).bind (.ite_left rfl
    ((runs_bump bar r vars' loops false).bind (runs_pure _ _)))) gap

end Stages

/-! ### Along what spells a pipeline -/

/-- What spells an operand starts like one. -/
theorem exists_start_operand {depth : Nat} {ps : List Piece} {c : OperandClass} {spaced : Bool}
    {o : Template.Operand} (h : Spelling.Operand depth ps c spaced o) :
    ∃ p r, ps = p :: r ∧ p.kind.startsOperand := by
  cases h with
  | atom hatom _ _ => exact ⟨_, _, rfl, startsOperand_of_atom hatom⟩
  | paren hleft _ _ _ => exact ⟨_, _, rfl, by rw [hleft]; rfl⟩

/-- What spells a command starts with an operand. -/
theorem exists_start_command {depth : Nat} {ps : List Piece} {c : OperandClass}
    {os : List Template.Operand} (h : Spelling.Command depth ps c os) :
    ∃ p r, ps = p :: r ∧ p.kind.startsOperand := by
  cases h with
  | last hoperand => exact exists_start_operand hoperand
  | more hoperand _ =>
    obtain ⟨p, r, rfl, hstart⟩ := exists_start_operand hoperand
    exact ⟨p, _, rfl, hstart⟩

/-- Behind pieces fewer of them are left. -/
theorem length_lt_append {ps : List Piece} (h : ps ≠ []) (r : List Piece) :
    r.length < (ps ++ r).length := by
  have := List.length_pos_iff.mpr h
  rw [List.length_append]
  omega

/-- A command that runs in front of whatever may follow it. -/
structure CommandRuns (depth : Nat) (vars : List String) (ps : List Piece) (c : OperandClass)
    (os : List Template.Operand) (vars' : List String) : Prop where
  start : ∃ p r, ps = p :: r ∧ p.kind.startsOperand
  runs : ∀ (r : List Piece) (loops : Nat), endsCommand (r.head?.map Piece.kind) →
    Runs (command (parenthesized depth)) ⟨⟨ps ++ r, vars, loops⟩, false⟩ (some c) [.command os]
      ⟨⟨r, vars', loops⟩, false⟩

/-- A command shows its operands. -/
theorem nodePart_command (os : List Template.Operand) :
    nodePart .command (os.map .operand) = .command os := by
  rw [nodePart, assemble, List.filterMap_map]
  exact congrArg Part.command List.filterMap_some

/-- Whatever classes have been found, one more command that can be run does no harm. -/
theorem pipelineFault?_concat {context : Context} {classes : List OperandClass}
    (h : pipelineFault? context classes = none) :
    pipelineFault? context (classes ++ [.executable]) = none := by
  cases classes with
  | nil => exact absurd h (by simp [pipelineFault?])
  | cons c cs =>
    obtain ⟨hnil, hall⟩ := (pipelineFault?_cons context c cs).mp h
    refine (pipelineFault?_cons context c _).mpr ⟨hnil, fun d hd ↦ ?_⟩
    rcases List.mem_append.mp hd with hd | hd
    · exact hall d hd
    · exact List.mem_singleton.mp hd

/-- What closes a pipeline ends a command. -/
theorem endsCommand_of_closes {close : TokenKind} (hends : ClosesPipeline close) {r : List Piece}
    (hclose : r.head?.map Piece.kind = some close) : endsCommand (r.head?.map Piece.kind) := by
  rw [hclose]
  rcases hends with rfl | rfl
  · rfl
  · rfl

mutual

/-- A run over an operand. -/
theorem runs_operand {depth : Nat} {ps : List Piece} {c : OperandClass} {spaced : Bool}
    {o : Template.Operand} {vars : List String} (r : List Piece) (loops : Nat) (gap : Bool) :
    Spelling.Operand depth ps c spaced o → WellScoped (o.visits vars) →
      View.adjacent ⟨⟨r, o.varsAfter vars, loops⟩, spaced⟩ ≠ some .field →
      Runs (operand (parenthesized depth)) ⟨⟨ps ++ r, vars, loops⟩, gap⟩ (some c) [.operand o]
        ⟨⟨r, o.varsAfter vars, loops⟩, spaced⟩
  | .atom hatom hfields hclass, hscoped, hnext => by
    rw [Spelling.visits_atom] at hscoped
    rw [Spelling.varsAfter_atom] at hnext ⊢
    exact runs_atom (Spelling.atom_iff.mpr ⟨hatom, hscoped⟩) hfields hclass hnext gap
  | @Spelling.Operand.paren _ left right ps fs _ _ hleft hpipeline hright hfields, hscoped, hnext
    => by
    rw [Operand.visits] at hscoped
    rw [Operand.varsAfter] at hnext ⊢
    have hinner := (runs_pipeline (right :: (fs ++ r)) loops left.spaced .parenthesized rfl
      hpipeline hscoped (.inr rfl) (congrArg some hright)).inParens
    have hruns := runs_paren hleft hinner hright hfields hnext gap
    rwa [List.append_assoc]

/-- A run over a command. -/
theorem runs_command {depth : Nat} {ps : List Piece} {c : OperandClass}
    {os : List Template.Operand} {vars : List String} (r : List Piece) (loops : Nat) (gap : Bool)
    (first : Option OperandClass) :
    Spelling.Command depth ps c os → WellScoped (operandsVisits os vars) →
      endsCommand (r.head?.map Piece.kind) →
      Runs (iterate (commandStep (parenthesized depth)) first) ⟨⟨ps ++ r, vars, loops⟩, gap⟩
        (first <|> some c) (os.map .operand) ⟨⟨r, operandsVarsAfter os vars, loops⟩, false⟩
  | @Spelling.Command.last _ _ _ true _ hoperand, hscoped, hends => by
    rw [operandsVisits, operandsVisits, List.append_nil] at hscoped
    rw [operandsVarsAfter, operandsVarsAfter]
    have hoperand' := runs_operand r loops gap hoperand hscoped
      (by simp [View.adjacent])
    obtain ⟨p, ps', rfl, -⟩ := exists_start_operand hoperand
    exact .iterate_more (runs_commandStep_more first hoperand')
      (length_lt_append (List.cons_ne_nil p ps') r)
      (.iterate_last (runs_commandStep_end _ true hends))
  | @Spelling.Command.last _ _ _ false _ hoperand, hscoped, hends => by
    rw [operandsVisits, operandsVisits, List.append_nil] at hscoped
    rw [operandsVarsAfter, operandsVarsAfter]
    have hnext : r.head?.map Piece.kind ≠ some .field := by
      intro h
      rw [h] at hends
      exact Bool.false_ne_true hends
    have hoperand' := runs_operand r loops gap hoperand hscoped hnext
    exact .iterate_last (runs_commandStep_last first hoperand' hends)
  | @Spelling.Command.more _ ps qs c _ _ _ hoperand hcommand, hscoped, hends => by
    rw [operandsVisits, wellScoped_append] at hscoped
    rw [operandsVarsAfter, List.append_assoc]
    have hoperand' := runs_operand (qs ++ r) loops gap hoperand hscoped.1
      (by simp [View.adjacent])
    have hcommand' := runs_command r loops true (first <|> some c) hcommand hscoped.2 hends
    obtain ⟨p, ps', rfl, -⟩ := exists_start_operand hoperand
    have hruns := Runs.iterate_more (runs_commandStep_more first hoperand')
      (length_lt_append (List.cons_ne_nil p ps') (qs ++ r)) hcommand'
    cases first <;> exact hruns

/-- A run over the commands of a pipeline, from the first one on. -/
theorem runs_stages {depth : Nat} {ps qs r : List Piece} {c : OperandClass}
    {os : List Template.Operand} {cs : List (List Template.Operand)} {vars vars' : List String}
    {context : Context} {close : TokenKind} (classes : List OperandClass) (loops : Nat) (gap : Bool)
    (hcommand : CommandRuns depth vars ps c os vars')
    (hfault : pipelineFault? context (classes ++ [c]) = none) (hends : ClosesPipeline close)
    (hclose : r.head?.map Piece.kind = some close) :
    Spelling.Stages depth qs cs → WellScoped (commandsVisits cs vars') →
      ∃ classes' parts, Runs (iterate (pipelineStep (parenthesized depth) context close) classes)
        ⟨⟨ps ++ (qs ++ r), vars, loops⟩, gap⟩ classes' parts
        ⟨⟨r, commandsVarsAfter cs vars', loops⟩, false⟩ ∧
        parts.filterMap Part.command? = os :: cs ∧ parts.findSome? Part.decl? = none
  | .nil, hscoped => by
    obtain ⟨⟨p, ps', rfl, hstart⟩, hruns⟩ := hcommand
    rw [commandsVarsAfter]
    have hstep := runs_pipelineStep_last context classes hstart hends
      (hruns r loops (endsCommand_of_closes hends hclose)) hclose gap
    have hend := runs_pipelineStep_end (parenthesized depth) vars' loops hclose hfault false
    exact ⟨_, _, .iterate_more hstep (length_lt_append (List.cons_ne_nil p ps') r)
      (.iterate_last hend), rfl, rfl⟩
  | @Spelling.Stages.bar _ bar hbar, hscoped => by
    obtain ⟨⟨p, ps', rfl, hstart⟩, hruns⟩ := hcommand
    rw [commandsVarsAfter]
    have hstep := runs_pipelineStep_bar context classes hstart hends
      (hruns (bar :: r) loops (by rw [List.head?_cons, Option.map_some, hbar]; rfl)) hbar gap
    have hend := runs_pipelineStep_end (parenthesized depth) vars' loops hclose hfault bar.spaced
    exact ⟨_, _, .iterate_more hstep (by simp; omega) (.iterate_last hend), rfl, rfl⟩
  | @Spelling.Stages.cons _ bar qs₁ qs₂ os₁ _ hbar hspells hstages, hscoped => by
    rw [commandsVisits, wellScoped_append] at hscoped
    obtain ⟨⟨p, ps', rfl, hstart⟩, hruns⟩ := hcommand
    rw [commandsVarsAfter, List.append_assoc]
    have hnext : CommandRuns depth vars' qs₁ .executable os₁ (operandsVarsAfter os₁ vars') := by
      refine ⟨exists_start_command hspells, fun r loops hends ↦ ?_⟩
      have hnode := (runs_command r loops false none hspells hscoped.1 hends).node .command rfl rfl
      rwa [nodePart_command] at hnode
    obtain ⟨classes', parts, hrest, hcommands, hdecl⟩ :=
        runs_stages (classes ++ [c]) loops bar.spaced
      hnext (pipelineFault?_concat hfault) hends hclose hstages hscoped.2
    have hstep := runs_pipelineStep_bar context classes hstart hends
      (hruns (bar :: (qs₁ ++ (qs₂ ++ r))) loops
        (by rw [List.head?_cons, Option.map_some, hbar]; rfl)) hbar gap
    exact ⟨_, _, .iterate_more hstep (by simp; omega) hrest, congrArg (os :: ·) hcommands, hdecl⟩

/-- A run over a pipeline. -/
theorem runs_pipeline {depth : Nat} {inRange : Bool} {ps : List Piece} {pl : Template.Pipeline}
    {vars : List String} (r : List Piece) (loops : Nat) (gap : Bool) (context : Context)
    {close : TokenKind} (hcontext : inRange = decide (context = .header .rangeBlock)) :
    Spelling.Pipeline depth inRange ps pl → WellScoped (pl.visits vars) → ClosesPipeline close →
      r.head?.map Piece.kind = some close →
      Runs (pipeline (parenthesized depth) context close) ⟨⟨ps ++ r, vars, loops⟩, gap⟩ ()
        [.pipeline pl] ⟨⟨r, pl.varsAfter vars, loops⟩, false⟩
  | @Spelling.Pipeline.mk _ _ ds ps₁ qs₁ c decl os cs hdeclares hcommand hnil hstages, hscoped,
    hends, hclose => by
    rw [Pipeline.visits, commandsVisits, wellScoped_append] at hscoped
    rw [Pipeline.varsAfter, commandsVarsAfter]
    have hfirst : CommandRuns depth (Decl.enter decl vars) ps₁ c os
        (operandsVarsAfter os (Decl.enter decl vars)) := by
      refine ⟨exists_start_command hcommand, fun r loops hends ↦ ?_⟩
      have hnode := (runs_command r loops false none hcommand hscoped.1 hends).node .command rfl rfl
      rwa [nodePart_command] at hnode
    have hbehind := endsCommand_of_stages hends (hstages.grammar hscoped.2) hclose
    have hnone : NoDecl (ps₁ ++ (qs₁ ++ r)) := fun p rest happend hp ↦
      not_continuesDecl_of_command (hcommand.grammar hscoped.1)
        (not_continuesDecl_of_endsCommand hbehind) happend hp
    have hnext : ps₁.head?.map Piece.kind = (ps₁ ++ (qs₁ ++ r)).head?.map Piece.kind := by
      obtain ⟨p, ps', rfl, -⟩ := exists_start_command hcommand
      rfl
    obtain ⟨gap', hdeclaration⟩ := runs_declaration hcontext hdeclares hnext hnone vars loops gap
    obtain ⟨classes, parts, hloop, hcommands, hdecl⟩ := runs_stages [] loops gap' hfirst
      ((pipelineFault?_cons context c []).mpr ⟨hnil, by simp⟩) hends hclose hstages hscoped.2
    have hpart : nodePart .pipeline ((decl.map Part.decl).toList ++ (parts ++ [])) =
        .pipeline (.mk decl (os :: cs)) := by
      rw [nodePart, assemble, List.append_nil, List.filterMap_append, hcommands,
        List.findSome?_append,
        hdecl]
      cases decl <;> rfl
    rw [← hpart, pipeline_eq, List.append_assoc, List.append_assoc]
    exact .unless_failed (Runs.node .pipeline rfl rfl
      (hdeclaration.bind (hloop.bind (runs_pure () _))))

end

end AlertAudit.Template.Parser
