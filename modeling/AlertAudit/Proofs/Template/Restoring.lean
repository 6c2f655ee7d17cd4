import AlertAudit.Proofs.Template.Growth.Productions
import AlertAudit.Proofs.Template.Lookups

/-!
Scopes that are given back. While something is parsed, variables only come into scope in front of
the others (`State.GrowsTo.vars`), so the parser gets the old ones back by dropping down to the mark
that it has set; the loops and the parentheses around a place are counted up and down again. None of
that asks whether there is an error. The reading of a template does the same with what its variables
stand for: names come into scope in front of the others (`Reading.Deepens`), and the dot is put back
wherever it was changed.
-/

set_option autoImplicit false

namespace AlertAudit.Template

namespace Parser

variable {α β : Type}

/-! ### The parser -/

/-- The two states stand in the same scope, in as many loops and in as many parentheses. -/
structure State.Level (s t : State) : Prop where
  vars : t.vars = s.vars
  loops : t.loops = s.loops
  depth : t.depth = s.depth

theorem State.Level.refl (s : State) : s.Level s := ⟨rfl, rfl, rfl⟩

theorem State.Level.trans {s t u : State} (hst : s.Level t) (htu : t.Level u) : s.Level u :=
  ⟨htu.vars.trans hst.vars, htu.loops.trans hst.loops, htu.depth.trans hst.depth⟩

/-- `p` gives back the scope, the loops and the parentheses, also when it fails. -/
def Restores (p : Parser α) : Prop := ∀ s : State, s.Level (p s).2

theorem restores_pure (a : α) : Restores (pure a : Parser α) := fun s ↦ .refl s

/-- Parsers one after the other restore what each of them restores. -/
theorem restores_bind {p : Parser α} {f : α → Parser β} (hp : Restores p)
    (hf : ∀ a, Restores (f a)) : Restores (p >>= f) :=
  fun s ↦ (hp s).trans (hf _ _)

theorem restores_ite {c : Prop} [Decidable c] {p q : Parser α} (hp : Restores p)
    (hq : Restores q) : Restores (if c then p else q) := by
  split
  · exact hp
  · exact hq

theorem restores_failed : Restores failed := fun s ↦ .refl s

theorem restores_next : Restores next := fun _ ↦ ⟨rfl, rfl, rfl⟩

theorem restores_current : Restores current := restores_bind restores_next fun _ ↦ restores_pure _

theorem restores_currentText : Restores currentText :=
  restores_bind restores_next fun _ ↦ restores_pure _

/-- Recording an error leaves the scope and the depth as they are. -/
theorem restores_fail (cause : Cause) : Restores (fail cause) := by
  intro s
  by_cases herror : s.error = none
  · rw [fail_apply_of_none herror]
    exact ⟨rfl, rfl, rfl⟩
  · rw [fail_apply_of_isSome (Option.isSome_iff_ne_none.mpr herror)]
    exact .refl s

theorem restores_unexpected (context : Context) : Restores (unexpected context) := by
  intro s
  obtain ⟨cause, hcause⟩ := unexpected_apply context s
  rw [hcause]
  exact (restores_next s).trans (restores_fail cause _)

/-- Taking a token restores the scope and the depth. -/
theorem restores_bump : Restores bump := by
  intro s
  cases hrest : s.look.rest with
  | nil =>
    rw [bump_apply_of_nil hrest]
    exact ⟨rfl, rfl, rfl⟩
  | cons token rest =>
    rw [bump_apply_of_cons hrest]
    exact ⟨rfl, rfl, rfl⟩

/-- A token that must come next leaves the scope and the depth as they are. -/
theorem restores_expect (kind : TokenKind) (context : Context) :
    Restores (expect kind context) := by
  have heat : Restores (eat kind) := restores_bind restores_current fun _ ↦
    restores_ite (restores_bind restores_bump fun _ ↦ restores_pure _) (restores_pure _)
  exact restores_bind heat fun _ ↦ restores_ite (restores_pure _)
    (restores_bind (restores_unexpected context) fun _ ↦ restores_pure _)

/-- What is restored inside of a node is restored behind it. -/
theorem restores_node {kind : NodeKind} {p : Parser α} (hp : Restores p) :
    Restores (node kind p) := fun _ ↦ ⟨(hp _).vars, (hp _).loops, (hp _).depth⟩

/-- A template of its own gives the scope and the loops back, whatever it does with them. -/
theorem restores_isolated {p : Parser α} (hp : Grows p) : Restores (isolated p) :=
  fun _ ↦ ⟨rfl, rfl, (hp _).depth⟩

/-- The mark is never above what is left: nothing that was in scope is dropped. -/
theorem restores_keepingVars {p : Parser α} (hp : Grows (keepingVars p)) :
    Restores (keepingVars p) := by
  intro s
  have hlength : (keepingVars p s).2.vars.length ≤ s.vars.length := by
    change ((p s).2.vars.drop ((p s).2.vars.length - s.vars.length)).length ≤ s.vars.length
    rw [List.length_drop]
    omega
  exact ⟨((hp s).vars.eq_of_length_le hlength).symm, (hp s).loops, (hp s).depth⟩

section Bodies

variable {bodies : Bodies} (hbodies : bodies.Grow)

include hbodies

/-- Blocks give back the scope and the depth, whatever stands inside of them. -/
theorem restores_control (kind : Control) : Restores (control bodies kind) :=
  restores_keepingVars (consumes_control hbodies kind).grows

theorem restores_templateBody (context : Context) : Restores (templateBody bodies context) := by
  refine restores_bind restores_failed fun _ ↦ restores_ite (restores_pure _)
    (restores_isolated (grows_bind hbodies.list fun listEnd ↦ ?_))
  cases listEnd with
  | atEnd => exact grows_endAction
  | atElse => exact grows_bind grows_strayElse fun _ ↦ grows_fail _
  | stopped => exact grows_pure _

theorem restores_define : Restores (define bodies) := by
  have hname : Restores (templateName .defineClause) := by
    refine restores_bind restores_failed fun _ ↦ restores_ite (restores_pure _) ?_
    refine restores_bind restores_current fun _ ↦ restores_ite ?_ (restores_unexpected _)
    refine restores_bind restores_currentText fun _ ↦ restores_ite restores_bump ?_
    exact restores_bind (restores_fail _) fun _ ↦ restores_bump
  refine restores_node (restores_bind restores_bump fun _ ↦ restores_bind restores_bump fun _ ↦ ?_)
  exact restores_bind hname fun _ ↦ restores_bind (restores_expect _ _) fun _ ↦
    restores_templateBody hbodies _

end Bodies

end Parser

/-! ### The reading -/

namespace Reading

open AlertAudit.Template.Path (Stays)

variable {α β : Type}

/-- The step leaves the dot alone, and brings names into scope only in front of the others. -/
def Deepens (step : Reading α) : Prop := ∀ s : State,
  (step s).2.dot = s.dot ∧ s.scope.map Prod.fst <:+ (step s).2.scope.map Prod.fst

/-- A step that leaves the scope as it is only deepens it. -/
theorem deepens_of_stays {step : Reading α} (h : Stays step) : Deepens step := by
  intro s
  obtain ⟨hscope, hdot⟩ := h s
  exact ⟨hdot, hscope ▸ List.suffix_rfl⟩

theorem deepens_pure (a : α) : Deepens (pure a : Reading α) := deepens_of_stays (Path.stays_pure a)

/-- Steps one after the other only deepen the scope. -/
theorem deepens_bind {step : Reading α} {f : α → Reading β} (hstep : Deepens step)
    (hf : ∀ a, Deepens (f a)) : Deepens (step >>= f) := fun s ↦
  ⟨(hf _ _).1.trans (hstep s).1, (hstep s).2.trans (hf _ _).2⟩

/-- A declaration puts its names in front of those that are in scope. -/
theorem deepens_declare (decl : Decl) (inRange : Bool) (valuesBefore : Nat) (result : Denotation) :
    Deepens (Reading.bind decl inRange valuesBefore result) := by
  refine fun s ↦ ⟨?_, (names_bind decl inRange valuesBefore result s).2⟩
  obtain ⟨names, isAssign⟩ := decl
  rcases inRange with _ | _
  · rcases names with _ | ⟨name, _ | ⟨second, rest⟩⟩ <;> rfl
  · rfl

mutual

/-- Operands only deepen the scope. -/
theorem deepens_operand : ∀ o : Operand, Deepens (operand o)
  | .mk (.paren none) span fields => by
    rw [operand]
    exact deepens_of_stays (Path.stays_finishOperand _ _ _ _)
  | .mk (.paren (some p)) span fields => by
    rw [operand]
    exact deepens_bind (deepens_pipeline p false) fun _ ↦
      deepens_of_stays (Path.stays_finishOperand _ _ _ _)
  | .mk .dot span fields | .mk .field span fields | .mk (.variable _) span fields
  | .mk (.function _) span fields | .mk (.literal _) span fields => by
    rw [operand_eq (by simp)]
    exact deepens_of_stays (Path.stays_simpleOperand _ _ _)

theorem deepens_operands : ∀ os : List Operand, Deepens (operands os)
  | [] => deepens_pure _
  | o :: os => deepens_bind (deepens_operand o) fun _ ↦ deepens_bind (deepens_operands os) fun _ ↦
    deepens_pure _

theorem deepens_commands : ∀ cs : List (List Operand), Deepens (commands cs)
  | [] => deepens_pure _
  | c :: cs => deepens_bind (deepens_operands c) fun ds ↦
    deepens_bind (deepens_of_stays (Path.stays_commandResult c ds)) fun _ ↦
      deepens_bind (deepens_commands cs) fun _ ↦ deepens_pure _

/-- A pipeline does not move the dot, and what it declares it adds. -/
theorem deepens_pipeline : ∀ (p : Pipeline) (inRange : Bool), Deepens (pipeline p inRange)
  | .mk none cs, inRange => by
    rw [pipeline]
    exact deepens_commands cs
  | .mk (some decl) cs, inRange => by
    intro s
    rw [pipeline]
    have hcommands := deepens_commands cs s
    have hdeclare := deepens_declare decl inRange s.reads.values.length
      (pipelineResult (commands cs s).1) (commands cs s).2
    exact ⟨hdeclare.1.trans hcommands.1, hcommands.2.trans hdeclare.2⟩

end

theorem deepens_pipelineOf (p : Option Pipeline) (inRange : Bool) :
    Deepens (pipelineOf p inRange) := by
  cases p with
  | none => exact deepens_pure _
  | some p => exact deepens_pipeline p inRange

theorem deepens_withDot (dot : Denotation) {step : Reading Unit} (h : Deepens step) :
    Deepens (withDot dot step) :=
  fun s ↦ ⟨rfl, (h { s with dot }).2⟩

/-- A scope of its own is given back. -/
theorem deepens_keepingScope {step : Reading Unit} (h : Deepens step) :
    Deepens (keepingScope step) :=
  fun s ↦ ⟨(h s).1, names_keepingScope step (h s).2 ▸ List.suffix_rfl⟩

/-- The header, the list and the else branch of a block, before their names are dropped. -/
theorem deepens_parts (kind : Control) (p : Option Pipeline) {b : Body} {o : Otherwise}
    (hbody : Deepens (body b)) (hotherwise : Deepens (otherwise o)) :
    Deepens (header kind p b >>= fun _ ↦ otherwise o) := by
  refine deepens_bind (deepens_bind (deepens_pipelineOf p _) fun d ↦ ?_) fun _ ↦ hotherwise
  cases kind with
  | ifBlock => exact hbody
  | withBlock => exact deepens_withDot d hbody
  | rangeBlock => exact deepens_withDot .unknown hbody

mutual

/-- Items only deepen the scope. -/
theorem deepens_item : ∀ i : Item, Deepens (item i)
  | .action _ p | .call _ _ p => by
    rw [item]
    exact deepens_bind (deepens_pipelineOf p false) fun _ ↦ deepens_pure _
  | .control kind _ p b o => by
    rw [item_control]
    exact deepens_keepingScope (deepens_parts kind p (deepens_body b) (deepens_otherwise o))
  | .define _ _ b => by
    rw [item]
    exact deepens_of_stays fun _ ↦ ⟨rfl, rfl⟩
  | .block _ _ p b => by
    rw [item]
    exact deepens_bind (deepens_pipelineOf p false) fun _ ↦ deepens_of_stays fun _ ↦ ⟨rfl, rfl⟩

theorem deepens_body : ∀ b : Body, Deepens (body b)
  | .missing => deepens_pure _
  | .items is => deepens_items is

theorem deepens_items : ∀ is : List Item, Deepens (items is)
  | [] => deepens_pure _
  | i :: is => deepens_bind (deepens_item i) fun _ ↦ deepens_items is

theorem deepens_otherwise : ∀ o : Otherwise, Deepens (otherwise o)
  | .none => deepens_pure _
  | .nested i => deepens_item i
  | .body b => deepens_body b

end

end Reading

/-- Whatever the tokens are, and also when they break the rules, the parser of a block and that of a
definition give back the variables in scope and the counts of loops and of parentheses. To read an
item gives back the dot; a block gives back the names in scope, and a definition also what they
stand for. -/
theorem scopes_restored :
    (∀ (nesting : Nat) (s : Parser.State),
      (∀ kind, s.Level (Parser.control (Parser.bodiesTo nesting) kind s).2) ∧
      s.Level (Parser.define (Parser.bodiesTo nesting) s).2) ∧
    ∀ s : Reading.State, (∀ i : Item, (Reading.item i s).2.dot = s.dot) ∧
      (∀ kind span p b o, (Reading.item (.control kind span p b o) s).2.scope.map Prod.fst =
        s.scope.map Prod.fst) ∧
      ∀ span name b, (Reading.item (.define span name b) s).2.scope = s.scope := by
  refine ⟨fun nesting s ↦ ?_, fun s ↦ ⟨fun i ↦ ?_, fun kind span p b o ↦ ?_, fun span name b ↦ ?_⟩⟩
  · have hbodies := Parser.grow_bodiesTo nesting
    exact ⟨fun kind ↦ Parser.restores_control hbodies kind s, Parser.restores_define hbodies s⟩
  · exact (Reading.deepens_item i s).1
  · rw [Reading.item_control]
    have hparts := Reading.deepens_parts kind p (Reading.deepens_body b)
      (Reading.deepens_otherwise o)
    exact Reading.names_keepingScope _ (hparts s).2
  · rw [Reading.item]
    rfl

end AlertAudit.Template
