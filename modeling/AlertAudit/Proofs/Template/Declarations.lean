import AlertAudit.Proofs.Template.PathReads
import AlertAudit.Proofs.Template.Scoping

/-!
The declarations in an outline. Where there are none, the names in scope stay the same
(`itemsVarsAfter_of_decls`), and a reading ends with the variables and the dot with which it starts
(`stays_items`): bodies and branches give back what they change.
-/

set_option autoImplicit false

namespace AlertAudit.Template

/-! ### Declarations in an outline -/

mutual

/-- The declarations in the parentheses of an operand. -/
def Operand.decls : Operand → List Decl
  | .mk (.paren (some p)) _ _ => p.decls
  | _ => []

def operandsDecls : List Operand → List Decl
  | [] => []
  | o :: os => o.decls ++ operandsDecls os

def commandsDecls : List (List Operand) → List Decl
  | [] => []
  | c :: cs => operandsDecls c ++ commandsDecls cs

/-- The declaration of a pipeline and those in its operands. -/
def Pipeline.decls : Pipeline → List Decl
  | .mk decl cs => decl.toList ++ commandsDecls cs

end

def pipelineDecls (p : Option Pipeline) : List Decl := p.elim [] Pipeline.decls

mutual

/-- The declarations of the pipelines in an item. -/
def Item.decls : Item → List Decl
  | .action _ p | .call _ _ p => pipelineDecls p
  | .control _ _ p b o => pipelineDecls p ++ b.decls ++ o.decls
  | .define _ _ b => b.decls
  | .block _ _ p b => pipelineDecls p ++ b.decls

def Body.decls : Body → List Decl
  | .missing => []
  | .items is => itemsDecls is

/-- The declarations of the pipelines in some items, at any depth. -/
def itemsDecls : List Item → List Decl
  | [] => []
  | i :: is => i.decls ++ itemsDecls is

def Otherwise.decls : Otherwise → List Decl
  | .none => []
  | .nested i => i.decls
  | .body b => b.decls

end

/-! ### Names in scope -/

mutual

theorem Operand.varsAfter_of_decls (vars : List String) :
    ∀ o : Operand, o.decls = [] → o.varsAfter vars = vars
  | .mk (.paren (some p)) _ _, h => by
    rw [Operand.varsAfter]
    exact p.varsAfter_of_decls vars h
  | .mk (.paren none) _ _, _ | .mk .dot _ _, _ | .mk .field _ _, _ | .mk (.variable _) _ _, _
  | .mk (.function _) _ _, _ | .mk (.literal _) _ _, _ => by rw [Operand.varsAfter]; simp

theorem operandsVarsAfter_of_decls (vars : List String) :
    ∀ os : List Operand, operandsDecls os = [] → operandsVarsAfter os vars = vars
  | [], _ => by rw [operandsVarsAfter]
  | o :: os, h => by
    obtain ⟨ho, hos⟩ := List.append_eq_nil_iff.mp h
    rw [operandsVarsAfter, o.varsAfter_of_decls vars ho, operandsVarsAfter_of_decls vars os hos]

theorem commandsVarsAfter_of_decls (vars : List String) :
    ∀ cs : List (List Operand), commandsDecls cs = [] → commandsVarsAfter cs vars = vars
  | [], _ => by rw [commandsVarsAfter]
  | c :: cs, h => by
    obtain ⟨hc, hcs⟩ := List.append_eq_nil_iff.mp h
    rw [commandsVarsAfter, operandsVarsAfter_of_decls vars c hc,
      commandsVarsAfter_of_decls vars cs hcs]

theorem Pipeline.varsAfter_of_decls (vars : List String) :
    ∀ p : Pipeline, p.decls = [] → p.varsAfter vars = vars
  | .mk none cs, h => by
    rw [Pipeline.varsAfter]
    exact commandsVarsAfter_of_decls vars cs h
  | .mk (some _) _, h => absurd h nofun

end

theorem Item.varsAfter_of_decls (vars : List String) (i : Item) (h : i.decls = []) :
    i.varsAfter vars = vars := by
  have hpipeline (p : Option Pipeline) (h : pipelineDecls p = []) :
      pipelineVarsAfter p vars = vars := by
    cases p with
    | none => rfl
    | some p => exact p.varsAfter_of_decls vars h
  cases i with
  | action _ p | call _ _ p =>
    rw [Item.varsAfter]
    exact hpipeline p h
  | block _ _ p _ =>
    rw [Item.varsAfter]
    exact hpipeline p (List.append_eq_nil_iff.mp h).1
  | control | define => rw [Item.varsAfter]

/-- Without a declaration the names in scope stay the same. -/
theorem itemsVarsAfter_of_decls (vars : List String) (is : List Item) (h : itemsDecls is = []) :
    itemsVarsAfter is vars = vars := by
  induction is with
  | nil => rfl
  | cons i is ih =>
    obtain ⟨hi, his⟩ := List.append_eq_nil_iff.mp h
    rw [itemsVarsAfter, i.varsAfter_of_decls vars hi, ih his]

/-! ### Readings -/

namespace Reading

open AlertAudit.Template.Path (Stays stays_bind stays_pure)

mutual

theorem stays_operand : ∀ o : Operand, o.decls = [] → Stays (operand o)
  | .mk (.paren none) span fields, _ => by
    rw [operand]
    exact Path.stays_finishOperand _ _ _ _
  | .mk (.paren (some p)) span fields, h => by
    rw [operand]
    exact stays_bind (stays_pipeline p false h) fun _ ↦ Path.stays_finishOperand _ _ _ _
  | .mk .dot span fields, _ | .mk .field span fields, _ | .mk (.variable _) span fields, _
  | .mk (.function _) span fields, _ | .mk (.literal _) span fields, _ => by
    rw [operand_eq (by simp)]
    exact Path.stays_simpleOperand _ _ _

theorem stays_operands : ∀ os : List Operand, operandsDecls os = [] → Stays (operands os)
  | [], _ => stays_pure _
  | o :: os, h => by
    obtain ⟨ho, hos⟩ := List.append_eq_nil_iff.mp h
    exact stays_bind (stays_operand o ho) fun _ ↦ stays_bind (stays_operands os hos) fun _ ↦
      stays_pure _

theorem stays_commands : ∀ cs : List (List Operand), commandsDecls cs = [] → Stays (commands cs)
  | [], _ => stays_pure _
  | c :: cs, h => by
    obtain ⟨hc, hcs⟩ := List.append_eq_nil_iff.mp h
    exact stays_bind (stays_operands c hc) fun ds ↦ stays_bind (Path.stays_commandResult c ds)
      fun _ ↦ stays_bind (stays_commands cs hcs) fun _ ↦ stays_pure _

theorem stays_pipeline : ∀ (p : Pipeline) (inRange : Bool), p.decls = [] →
    Stays (pipeline p inRange)
  | .mk none cs, inRange, h => by
    rw [pipeline]
    exact stays_commands cs h
  | .mk (some _) _, _, h => absurd h nofun

end

theorem stays_pipelineOf (p : Option Pipeline) (inRange : Bool) (h : pipelineDecls p = []) :
    Stays (pipelineOf p inRange) := by
  cases p with
  | none => exact stays_pure _
  | some p => exact stays_pipeline p inRange h

section Scopes

variable {step : Reading Unit}

theorem stays_keepingScope (h : Stays step) : Stays (keepingScope step) := by
  intro s
  obtain ⟨hscope, hdot⟩ := h s
  refine ⟨?_, hdot⟩
  change (step s).2.scope.drop ((step s).2.scope.length - s.scope.length) = s.scope
  rw [hscope, Nat.sub_self, List.drop_zero]

theorem stays_withDot (dot : Denotation) (h : Stays step) : Stays (withDot dot step) :=
  fun _ ↦ ⟨(h _).1, rfl⟩

/-- A template of its own gives back what it changes, whether it declares or not. -/
theorem stays_isolated (step : Reading Unit) : Stays (isolated step) := fun _ ↦ ⟨rfl, rfl⟩

end Scopes

mutual

theorem stays_item : ∀ i : Item, i.decls = [] → Stays (item i)
  | .action _ p, h => by
    rw [item]
    exact stays_bind (stays_pipelineOf p false h) fun _ ↦ stays_pure _
  | .control kind _ p b o, h => by
    obtain ⟨h, ho⟩ := List.append_eq_nil_iff.mp h
    obtain ⟨hp, hb⟩ := List.append_eq_nil_iff.mp h
    have hbody := stays_body b hb
    rw [item_control]
    refine stays_keepingScope (stays_bind (stays_bind (stays_pipelineOf p _ hp) fun d ↦ ?_)
      fun _ ↦ stays_otherwise o ho)
    cases kind with
    | ifBlock => exact hbody
    | withBlock => exact stays_withDot d hbody
    | rangeBlock => exact stays_withDot .unknown hbody
  | .define _ _ b, _ => by
    rw [item]
    exact stays_isolated _
  | .block _ _ p b, h => by
    rw [item]
    exact stays_bind (stays_pipelineOf p false (List.append_eq_nil_iff.mp h).1) fun _ ↦
      stays_isolated _
  | .call _ _ p, h => by
    rw [item]
    exact stays_bind (stays_pipelineOf p false h) fun _ ↦ stays_pure _

theorem stays_body : ∀ b : Body, b.decls = [] → Stays (body b)
  | .missing, _ => stays_pure _
  | .items is, h => stays_items is h

/-- Without a declaration a reading ends with the variables and the dot with which it starts. -/
theorem stays_items : ∀ is : List Item, itemsDecls is = [] → Stays (items is)
  | [], _ => stays_pure _
  | i :: is, h => by
    obtain ⟨hi, his⟩ := List.append_eq_nil_iff.mp h
    exact stays_bind (stays_item i hi) fun _ ↦ stays_items is his

theorem stays_otherwise : ∀ o : Otherwise, o.decls = [] → Stays (otherwise o)
  | .none, _ => stays_pure _
  | .nested i, h => stays_item i h
  | .body b, h => stays_body b h

end

end Reading

end AlertAudit.Template
