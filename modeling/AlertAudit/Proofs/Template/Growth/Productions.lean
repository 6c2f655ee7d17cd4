import AlertAudit.Proofs.Template.Growth
import AlertAudit.Proofs.Template.OperandStages

/-!
Growth of the productions, from operands up to the items of a template. The lists inside of blocks
come last: `grows_bodiesTo` is an induction on how deep blocks may nest.
-/

set_option autoImplicit false

namespace AlertAudit.Template.Parser

/-! ### Pipelines -/

theorem grows_operandHead (kind : TokenKind) (text : String) : Grows (operandHead kind text) := by
  refine grows_bind grows_get fun s ↦ ?_
  cases operandFault? s.vars kind text with
  | none => exact grows_bump
  | some cause => exact grows_bind (grows_fail cause) fun _ ↦ grows_bump

/-- Where there is a token, the first stage of an operand takes it. -/
theorem takes_operandHead {kind : TokenKind} {text : String} {s : State} (h : s.look.rest ≠ []) :
    Takes (operandHead kind text) s := by
  refine takes_bind_of_right grows_get ?_
  rw [get_apply]
  cases operandFault? s.vars kind text with
  | none => exact takes_bump h
  | some cause =>
    refine takes_bind_of_right (grows_fail cause) (takes_bump ?_)
    rw [look_rest_fail]
    exact h

theorem grows_operandBody {inner : Parser Unit} (hinner : Grows inner) (kind : TokenKind) :
    Grows (operandBody inner kind) := by
  refine grows_ite (grows_bind hinner fun _ ↦ grows_bind grows_failed fun _ ↦ ?_) (grows_pure _)
  exact grows_ite (grows_pure _) (grows_bind (grows_eat _) fun _ ↦ grows_pure _)

theorem grows_operandFields (operandClass : OperandClass) (text : String) :
    Grows (operandFields operandClass text) := by
  refine grows_bind grows_failed fun _ ↦ grows_ite (grows_pure _) ?_
  refine grows_bind grows_adjacent fun _ ↦ grows_ite ?_ (grows_pure _)
  exact grows_ite (grows_takeAll _) (grows_fail _)

/-- The node of an operand is no frame. -/
theorem isFrame_of_operandOf? {kind : TokenKind} {nodeKind : NodeKind}
    {operandClass : OperandClass} (h : operandOf? kind = some (nodeKind, operandClass)) :
    nodeKind.isFrame = false := by
  unfold operandOf? at h
  split at h <;> simp only [Option.some.injEq, Prod.mk.injEq, reduceCtorEq] at h <;>
    obtain ⟨rfl, -⟩ := h <;> rfl

/-- It is the node of an operand, whatever its first token is. -/
theorem isOperand_of_operandOf? {kind : TokenKind} {nodeKind : NodeKind}
    {operandClass : OperandClass} (h : operandOf? kind = some (nodeKind, operandClass)) :
    nodeKind.isOperand := by
  unfold operandOf? at h
  split at h <;> simp only [Option.some.injEq, Prod.mk.injEq, reduceCtorEq] at h <;>
    obtain ⟨rfl, -⟩ := h <;> rfl

theorem grows_operandStages {inner : Parser Unit} (hinner : Grows inner) (kind : TokenKind)
    (operandClass : OperandClass) (text : String) :
    Grows (operandStages inner kind operandClass text) :=
  grows_bind (grows_operandHead kind text) fun _ ↦
    grows_bind (grows_operandBody hinner kind) fun _ ↦ grows_operandFields operandClass text

/-- They take a token where there is one. -/
theorem takes_operandStages {inner : Parser Unit} (hinner : Grows inner) {kind : TokenKind}
    {operandClass : OperandClass} {text : String} {s : State} (h : s.look.rest ≠ []) :
    Takes (operandStages inner kind operandClass text) s :=
  takes_bind_of_left (takes_operandHead h) fun _ ↦
    grows_bind (grows_operandBody hinner kind) fun _ ↦ grows_operandFields operandClass text

/-- The node of an operand has a token, since the first token of the operand goes there. -/
theorem growsTo_operandNode {inner : Parser Unit} (hinner : Grows inner) {s : State}
    {token : Token} {nodeKind : NodeKind} {operandClass : OperandClass}
    (hhead : s.look.rest.head? = some token)
    (hoperand : operandOf? token.kind = some (nodeKind, operandClass)) : s.look.GrowsTo
      (node nodeKind (operandStages inner token.kind operandClass token.text) s.look).2 := by
  have hstages := grows_operandStages hinner token.kind operandClass token.text
  refine growsTo_node (isFrame_of_operandOf? hoperand) (hstages _) fun _ ↦ ?_
  refine (hstages _).leaves_ne_nil rfl rfl (all_head?_look s) (takes_operandStages hinner ?_)
  change s.look.look.rest ≠ []
  rw [look_look]
  intro hnil
  rw [hnil] at hhead
  exact absurd hhead (by simp)

theorem grows_operand {inner : Parser Unit} (hinner : Grows inner) : Grows (operand inner) := by
  intro s
  refine (growsTo_look s).trans ?_
  cases hfound : s.look.rest.head?.bind (operandOf? ·.kind) with
  | none =>
    rw [operand_apply_of_none inner hfound]
    exact .refl _
  | some found =>
    obtain ⟨nodeKind, operandClass⟩ := found
    obtain ⟨token, hhead, hoperand⟩ := Option.bind_eq_some_iff.mp hfound
    rw [operand_apply_of_some inner hhead hoperand]
    exact growsTo_operandNode hinner hhead hoperand

/-- One round of the loop over the operands of a command. -/
def commandStep (inner : Parser Unit) (first : Option OperandClass) :
    Parser (Bool × Option OperandClass) := do
  let next ← operand inner
  let first := first <|> next
  if ← failed then return (false, first)
  let separator ← if next.isSome then adjacent else current
  if next.isSome && separator = some .whitespace then return (true, first)
  unless endsCommand separator do unexpected .operand
  return (false, first)

/-- A command is a loop over its operands. -/
theorem command_eq (inner : Parser Unit) :
    command inner = node .command (iterate (commandStep inner) none) := rfl

theorem grows_commandStep {inner : Parser Unit} (hinner : Grows inner)
    (first : Option OperandClass) : Grows (commandStep inner first) := by
  refine grows_bind (grows_operand hinner) fun next ↦ grows_bind grows_failed fun failed ↦ ?_
  refine grows_ite (grows_pure _) ?_
  have hstep : ∀ separator : Option TokenKind, Grows (
      if next.isSome && separator = some .whitespace then pure (true, first <|> next)
      else if endsCommand separator then pure (false, first <|> next)
      else unexpected .operand >>= fun _ ↦ pure (false, first <|> next)) := fun separator ↦
    grows_ite (grows_pure _) (grows_ite (grows_pure _)
      (grows_bind (grows_unexpected _) fun _ ↦ grows_pure _))
  exact grows_ite (grows_bind grows_adjacent hstep) (grows_bind grows_current hstep)

theorem grows_command {inner : Parser Unit} (hinner : Grows inner) : Grows (command inner) :=
  grows_node rfl rfl (grows_iterate (grows_commandStep hinner) none)

theorem grows_declared : Grows declared := by
  refine grows_bind grows_currentText fun name ↦ grows_bind grows_bump fun _ ↦ ?_
  refine grows_bind grows_current fun mark ↦ grows_bind (fun s ↦ ?_) fun _ ↦ ?_
  · exact growsTo_push s name
  · exact grows_bind grows_bump fun _ ↦ grows_pure _

theorem grows_declaration (context : Context) : Grows (declaration context) := by
  refine grows_bind grows_current fun kind ↦ grows_bind grows_second fun after ↦ ?_
  refine grows_ite ?_ (grows_pure _)
  refine grows_node rfl rfl (grows_bind grows_declared fun closed ↦ ?_)
  refine grows_ite (grows_pure _) (grows_ite ?_ (grows_fail _))
  refine grows_bind grows_current fun kind ↦ ?_
  split
  · refine grows_bind grows_second fun after ↦ grows_ite ?_ (grows_pure _)
    exact grows_bind grows_declared fun closed ↦ grows_ite (grows_pure _) (grows_fail _)
  · exact grows_pure _
  · exact grows_pure _
  · exact grows_fail _

/-- One round of the loop over the commands of a pipeline. -/
def pipelineStep (inner : Parser Unit) (context : Context) (close : TokenKind)
    (classes : List OperandClass) : Parser (Bool × List OperandClass) := do
  if ← failed then return (false, classes)
  let next ← current
  if next = some close then
    if let some cause := pipelineFault? context classes then fail cause
    return (false, classes)
  unless next.any (·.startsOperand) do
    unexpected context
    return (false, classes)
  let first ← command inner
  if (← adjacent) = some .pipe then bump
  return (true, classes ++ first.toList)

/-- A pipeline is a declaration and a loop over commands. -/
theorem pipeline_eq (inner : Parser Unit) (context : Context) (close : TokenKind) :
    pipeline inner context close = (do
    if ← failed then return
    node .pipeline do
      declaration context
      let _ ← iterate (pipelineStep inner context close) []) := rfl

theorem grows_pipelineStep {inner : Parser Unit} (hinner : Grows inner) (context : Context)
    (close : TokenKind) (classes : List OperandClass) :
    Grows (pipelineStep inner context close classes) := by
  refine grows_bind grows_failed fun failed ↦ grows_ite (grows_pure _) ?_
  refine grows_bind grows_current fun next ↦ grows_ite ?_ (grows_ite ?_ ?_)
  · dsimp only
    split
    · exact grows_bind (grows_fail _) fun _ ↦ grows_pure _
    · exact grows_pure _
  · refine grows_bind (grows_command hinner) fun first ↦ grows_bind grows_adjacent fun next ↦ ?_
    exact grows_ite (grows_bind grows_bump fun _ ↦ grows_pure _) (grows_pure _)
  · exact grows_bind (grows_unexpected _) fun _ ↦ grows_pure _

theorem grows_pipeline {inner : Parser Unit} (hinner : Grows inner) (context : Context)
    (close : TokenKind) : Grows (pipeline inner context close) := by
  refine grows_bind grows_failed fun failed ↦ grows_ite (grows_pure _) ?_
  refine grows_node rfl rfl (grows_bind (grows_declaration context) fun _ ↦ ?_)
  exact grows_bind (grows_iterate (grows_pipelineStep hinner context close) []) fun _ ↦ grows_pure _

/-- A pipeline in parentheses, however deep they nest. -/
theorem grows_parenthesized : ∀ depth : Nat, Grows (parenthesized depth)
  | 0 => grows_fail _
  | depth + 1 => grows_inParens (grows_pipeline (grows_parenthesized depth) _ _)

theorem grows_actionPipeline (context : Context) : Grows (actionPipeline context) :=
  grows_pipeline (grows_parenthesized maxDepth) _ _

/-! ### Items -/

/-- The parsers for what stands inside of a block grow, and a block takes a token unless there is
an error. -/
structure Bodies.Grow (bodies : Bodies) : Prop where
  list : Grows bodies.list
  control : ∀ kind : Control, Proceeds (bodies.control kind)

theorem grows_actionWord : Grows actionWord :=
  grows_bind grows_current fun _ ↦ grows_ite grows_second (grows_pure _)

theorem grows_endAction : Grows endAction :=
  grows_node rfl rfl (grows_bind grows_bump fun _ ↦ grows_bind grows_bump fun _ ↦
    grows_bind (grows_expect _ _) fun _ ↦ grows_pure _)

theorem grows_strayElse : Grows strayElse := by
  refine grows_node rfl rfl (grows_bind grows_bump fun _ ↦ grows_bind grows_bump fun _ ↦ ?_)
  refine grows_bind grows_current fun word ↦ grows_ite (grows_pure _) ?_
  exact grows_bind (grows_expect _ _) fun _ ↦ grows_pure _

theorem grows_elseBranch {bodies : Bodies} (hbodies : bodies.Grow) (kind : Control) :
    Grows (elseBranch bodies kind) := by
  refine grows_bind (grows_node rfl rfl ?_) fun listEnd ↦ ?_
  · refine grows_bind grows_bump fun _ ↦ grows_bind grows_bump fun _ ↦ ?_
    refine grows_bind grows_current fun word ↦ ?_
    cases chained? kind word with
    | some nested => exact grows_bind (hbodies.control nested).grows fun _ ↦ grows_pure _
    | none =>
      have hlist : Grows (do if ← failed then return .stopped else bodies.list) :=
        grows_bind grows_failed fun _ ↦ grows_ite (grows_pure _) hbodies.list
      refine grows_bind grows_current fun next ↦ grows_ite hlist ?_
      exact grows_bind (grows_expect _ _) fun _ ↦ hlist
  · cases listEnd with
    | atEnd => exact grows_endAction
    | atElse => exact grows_bind grows_strayElse fun _ ↦ grows_fail _
    | stopped => exact grows_pure _

/-- A block takes its first two tokens. -/
theorem consumes_control {bodies : Bodies} (hbodies : bodies.Grow) (kind : Control) :
    Consumes (control bodies kind) := by
  refine consumes_keepingVars (consumes_node rfl rfl ?_)
  refine consumes_eat_bump fun _ ↦ grows_bind (grows_actionPipeline _) fun _ ↦ ?_
  refine grows_bind (grows_eat _) fun _ ↦ grows_ite
    (grows_bind (grows_inLoop hbodies.list) ?_) (grows_bind hbodies.list ?_)
  all_goals
    intro listEnd
    cases listEnd with
    | atEnd => exact grows_endAction
    | atElse => exact grows_elseBranch hbodies kind
    | stopped => exact grows_pure _

theorem grows_templateName (context : Context) : Grows (templateName context) := by
  refine grows_bind grows_failed fun _ ↦ grows_ite (grows_pure _) ?_
  refine grows_bind grows_current fun kind ↦ grows_ite ?_ (grows_unexpected _)
  refine grows_bind grows_currentText fun text ↦ grows_ite grows_bump ?_
  exact grows_bind (grows_fail _) fun _ ↦ grows_bump

theorem grows_templateBody {bodies : Bodies} (hbodies : bodies.Grow) (context : Context) :
    Grows (templateBody bodies context) := by
  refine grows_bind grows_failed fun _ ↦ grows_ite (grows_pure _) (grows_isolated ?_)
  refine grows_bind hbodies.list fun listEnd ↦ ?_
  cases listEnd with
  | atEnd => exact grows_endAction
  | atElse => exact grows_bind grows_strayElse fun _ ↦ grows_fail _
  | stopped => exact grows_pure _

/-- The definition of a template takes its first two tokens. -/
theorem consumes_define {bodies : Bodies} (hbodies : bodies.Grow) : Consumes (define bodies) := by
  refine consumes_node rfl rfl
    (consumes_bind consumes_bump fun _ ↦ grows_bind grows_bump fun _ ↦ ?_)
  refine grows_bind (grows_templateName _) fun _ ↦ grows_bind (grows_expect _ _) fun _ ↦ ?_
  exact grows_templateBody hbodies _

/-- So does a block with a name. -/
theorem consumes_block {bodies : Bodies} (hbodies : bodies.Grow) : Consumes (block bodies) := by
  refine consumes_node rfl rfl
    (consumes_bind consumes_bump fun _ ↦ grows_bind grows_bump fun _ ↦ ?_)
  refine grows_bind (grows_templateName _) fun _ ↦ grows_bind (grows_actionPipeline _) fun _ ↦ ?_
  exact grows_bind (grows_eat _) fun _ ↦ grows_templateBody hbodies _

/-- So does a call of a template. -/
theorem consumes_call : Consumes call := by
  have hclose : Grows (do let _ ← eat .rightDelim) :=
    grows_bind (grows_eat .rightDelim) fun _ ↦ grows_pure _
  refine consumes_node rfl rfl
    (consumes_bind consumes_bump fun _ ↦ grows_bind grows_bump fun _ ↦ ?_)
  refine grows_bind (grows_templateName _) fun _ ↦ grows_bind grows_failed fun _ ↦ ?_
  refine grows_ite hclose (grows_bind grows_current fun next ↦ grows_ite hclose ?_)
  exact grows_bind (grows_actionPipeline _) fun _ ↦ hclose

/-- So does an action that leaves or repeats a loop. -/
theorem consumes_loopAction {kind : NodeKind} (hframe : kind.isFrame = false)
    (hoperand : kind.isOperand = false) (context : Context) :
    Consumes (loopAction kind context) := by
  refine consumes_node hframe hoperand ?_
  refine consumes_bind consumes_bump fun _ ↦ grows_bind grows_bump fun _ ↦ ?_
  refine grows_bind (grows_expect _ _) fun closed ↦ grows_ite ?_ (grows_pure _)
  exact grows_bind grows_get fun s ↦ grows_ite (grows_fail _) (grows_pure _)

/-- An action takes a token or fails. -/
theorem proceeds_action {bodies : Bodies} (hbodies : bodies.Grow) : Proceeds (action bodies) := by
  refine proceeds_second fun word ↦ ?_
  split
  · exact hbodies.control .ifBlock
  · exact hbodies.control .withBlock
  · exact hbodies.control .rangeBlock
  · exact (consumes_block hbodies).proceeds
  · exact consumes_call.proceeds
  · exact (consumes_loopAction rfl rfl _).proceeds
  · exact (consumes_loopAction rfl rfl _).proceeds
  · refine (consumes_node rfl rfl (consumes_bind consumes_bump fun _ ↦ ?_)).proceeds
    refine grows_bind (grows_actionPipeline _) fun _ ↦ grows_bind (grows_eat _) fun _ ↦ ?_
    exact grows_pure _

/-- So does an item. -/
theorem proceeds_item {bodies : Bodies} (hbodies : bodies.Grow) : Proceeds (item bodies) := by
  refine proceeds_current fun kind ↦ ?_
  split
  · exact consumes_bump.proceeds
  · exact (consumes_node rfl rfl consumes_bump).proceeds
  · exact proceeds_action hbodies
  · exact proceeds_unexpected _

theorem grows_list {bodies : Bodies} (hbodies : bodies.Grow) : Grows (list bodies) := by
  refine grows_node rfl rfl (grows_iterate (fun _ ↦ ?_) _)
  refine grows_bind grows_stopped fun _ ↦ grows_ite ?_ ?_
  · exact grows_bind (grows_fail _) fun _ ↦ grows_pure _
  · refine grows_bind grows_actionWord fun word ↦ ?_
    split
    · exact grows_pure _
    · exact grows_pure _
    · exact grows_bind (proceeds_item hbodies).grows fun _ ↦ grows_pure _

/-- However deep blocks may nest. -/
theorem grow_bodiesTo : ∀ depth : Nat, (bodiesTo depth).Grow
  | 0 => ⟨grows_bind (grows_fail _) fun _ ↦ grows_pure _, fun _ ↦ proceeds_fail _⟩
  | depth + 1 =>
    ⟨grows_list (grow_bodiesTo depth), fun _ ↦ (consumes_control (grow_bodiesTo depth) _).proceeds⟩

end AlertAudit.Template.Parser
