import AlertAudit.Template.Outline

/-!
The variables in scope, read off the outline of a template. A pipeline brings its variables into
scope before its commands, and they stay in scope to the end of the block around it, also when the
pipeline stands in parentheses. Each variable operand is visited with the names in scope at its
place; a template is well-scoped if every name that is visited is among them.
-/

set_option autoImplicit false

namespace AlertAudit.Template

/-- A variable operand and the names in scope where it stands, the innermost first. -/
structure Visit where
  name : Token
  vars : List String

/-- The names in scope behind a declaration. -/
def Decl.enter (decl : Option Decl) (vars : List String) : List String :=
  (decl.elim [] fun d ↦ d.names.map (·.text)).reverse ++ vars

/-! ### Pipelines -/

mutual

/-- The names in scope behind an operand. -/
def Operand.varsAfter : Operand → List String → List String
  | .mk (.paren (some p)) _ _, vars => p.varsAfter vars
  | _, vars => vars

def operandsVarsAfter : List Operand → List String → List String
  | [], vars => vars
  | o :: os, vars => operandsVarsAfter os (o.varsAfter vars)

def commandsVarsAfter : List (List Operand) → List String → List String
  | [], vars => vars
  | c :: cs, vars => commandsVarsAfter cs (operandsVarsAfter c vars)

/-- The names in scope behind a pipeline. -/
def Pipeline.varsAfter : Pipeline → List String → List String
  | .mk decl cs, vars => commandsVarsAfter cs (Decl.enter decl vars)

end

mutual

/-- The variable operands in an operand, with the names in scope where they stand. -/
def Operand.visits : Operand → List String → List Visit
  | .mk (.variable (some name)) _ _, vars => [⟨name, vars⟩]
  | .mk (.paren (some p)) _ _, vars => p.visits vars
  | _, _ => []

def operandsVisits : List Operand → List String → List Visit
  | [], _ => []
  | o :: os, vars => o.visits vars ++ operandsVisits os (o.varsAfter vars)

def commandsVisits : List (List Operand) → List String → List Visit
  | [], _ => []
  | c :: cs, vars => operandsVisits c vars ++ commandsVisits cs (operandsVarsAfter c vars)

/-- The variable operands in a pipeline, with the names in scope where they stand. -/
def Pipeline.visits : Pipeline → List String → List Visit
  | .mk decl cs, vars => commandsVisits cs (Decl.enter decl vars)

end

/-! ### Items -/

def pipelineVarsAfter (p : Option Pipeline) (vars : List String) : List String :=
  p.elim vars (·.varsAfter vars)

def pipelineVisits (p : Option Pipeline) (vars : List String) : List Visit :=
  p.elim [] (·.visits vars)

/-- The names in scope behind an item: the end of a block restores those in front of it. -/
def Item.varsAfter : Item → List String → List String
  | .action _ p, vars | .block _ _ p _, vars | .call _ _ p, vars => pipelineVarsAfter p vars
  | .control .., vars | .define .., vars => vars

def itemsVarsAfter : List Item → List String → List String
  | [], vars => vars
  | i :: is, vars => itemsVarsAfter is (i.varsAfter vars)

def Body.varsAfter : Body → List String → List String
  | .missing, vars => vars
  | .items is, vars => itemsVarsAfter is vars

mutual

/-- The variable operands in an item, with the names in scope where they stand. What the list of a
block declares is still in scope in its else branch. -/
def Item.visits : Item → List String → List Visit
  | .action _ p, vars | .call _ _ p, vars => pipelineVisits p vars
  | .control _ _ p b o, vars =>
    pipelineVisits p vars ++ b.visits (pipelineVarsAfter p vars) ++
      o.visits (b.varsAfter (pipelineVarsAfter p vars))
  | .define _ _ b, _ => b.visits ["$"]
  | .block _ _ p b, vars => pipelineVisits p vars ++ b.visits ["$"]

def Body.visits : Body → List String → List Visit
  | .missing, _ => []
  | .items is, vars => itemsVisits is vars

def itemsVisits : List Item → List String → List Visit
  | [], _ => []
  | i :: is, vars => i.visits vars ++ itemsVisits is (i.varsAfter vars)

def Otherwise.visits : Otherwise → List String → List Visit
  | .none, _ => []
  | .nested i, vars => i.visits vars
  | .body b, vars => b.visits vars

end

/-- Every variable operand names a variable in scope. -/
def WellScoped (vs : List Visit) : Prop := ∀ v ∈ vs, v.name.text ∈ v.vars

@[simp]
theorem wellScoped_nil : WellScoped [] := fun _ h ↦ absurd h List.not_mem_nil

@[simp]
theorem wellScoped_singleton {v : Visit} : WellScoped [v] ↔ v.name.text ∈ v.vars :=
  List.forall_mem_singleton

/-- Visits one after the other are well-scoped if all of them are. -/
@[simp]
theorem wellScoped_append {vs us : List Visit} :
    WellScoped (vs ++ us) ↔ WellScoped vs ∧ WellScoped us := List.forall_mem_append

/-- The variables behind some items and some more are those behind the latter. -/
theorem itemsVarsAfter_append (is js : List Item) (vars : List String) :
    itemsVarsAfter (is ++ js) vars = itemsVarsAfter js (itemsVarsAfter is vars) := by
  induction is generalizing vars with
  | nil => rfl
  | cons i is ih => exact ih _

/-- The visits in some items and some more are those in both, with the variables behind the former.
-/
theorem itemsVisits_append (is js : List Item) (vars : List String) :
    itemsVisits (is ++ js) vars = itemsVisits is vars ++
      itemsVisits js (itemsVarsAfter is vars) := by
  induction is generalizing vars with
  | nil => rfl
  | cons i is ih =>
    rw [List.cons_append, itemsVisits, itemsVisits, ih, List.append_assoc]
    rfl

end AlertAudit.Template
