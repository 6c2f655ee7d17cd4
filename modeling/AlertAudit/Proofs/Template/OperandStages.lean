import AlertAudit.Proofs.Template.Steps
import AlertAudit.Template.Parser.Pipeline

/-!
The reader of an operand in three stages, one after the other: its first token, the pipeline in it
if it is a parenthesis, and the fields attached to it.
-/

set_option autoImplicit false

namespace AlertAudit.Template.Parser

variable {α β : Type}

/-- Takes the first token of an operand, unless it is at fault. -/
def operandHead (kind : TokenKind) (text : String) : Parser Unit := do
  if let some cause := operandFault? (← get).vars kind text then fail cause
  bump

/-- Takes the rest of a parenthesis. -/
def operandBody (inner : Parser Unit) (kind : TokenKind) : Parser Unit := do
  if kind = .parenOpen then
    inner
    unless ← failed do
      let _ ← eat .parenClose

/-- Takes the fields that are attached to an operand. -/
def operandFields (operandClass : OperandClass) (text : String) : Parser Unit := do
  unless ← failed do
    if (← adjacent) = some .field then
      if operandClass = .executable then takeAll .field else fail (.fieldAfterTerm text)

/-- What stands in the node of an operand. -/
def operandStages (inner : Parser Unit) (kind : TokenKind) (operandClass : OperandClass)
    (text : String) : Parser Unit := do
  operandHead kind text
  operandBody inner kind
  operandFields operandClass text

/-- What follows a choice follows each side of it. -/
theorem ite_bind {c : Prop} [Decidable c] (p q : Parser α) (f : α → Parser β) :
    ((if c then p else q) >>= f) = if c then p >>= f else q >>= f := by
  split <;> rfl

/-- What follows the first token of an operand, written out. -/
theorem operandHead_bind (kind : TokenKind) (text : String) (k : Parser α) :
    (operandHead kind text >>= fun _ ↦ k) = (do
      if let some cause := operandFault? (← get).vars kind text then fail cause
      bump
      k) := by
  funext s
  simp only [operandHead, bind_apply, get_apply]
  cases operandFault? s.vars kind text <;> rfl

/-- What follows the rest of a parenthesis, written out. -/
theorem operandBody_bind (inner : Parser Unit) (kind : TokenKind) (k : Parser α) :
    (operandBody inner kind >>= fun _ ↦ k) = (do
      if kind = .parenOpen then
        inner
        unless ← failed do
          let _ ← eat .parenClose
      k) := by
  simp only [operandBody, ite_bind, bind_assoc, pure_bind]

/-- An operand is read in stages. -/
theorem operand_eq (inner : Parser Unit) : operand inner = (do
    let some kind ← current | return none
    let some (nodeKind, operandClass) := operandOf? kind | return none
    let text ← currentText
    node nodeKind (operandStages inner kind operandClass text)
    return some operandClass) := by
  simp only [operandStages, operandHead_bind, operandBody_bind]
  rfl

/-- An operand is read in stages if its first token can start one. -/
theorem operand_apply_of_some (inner : Parser Unit) {s : State} {token : Token}
    {nodeKind : NodeKind} {operandClass : OperandClass} (hhead : s.look.rest.head? = some token)
    (hoperand : operandOf? token.kind = some (nodeKind, operandClass)) :
    operand inner s = (some operandClass,
      (node nodeKind (operandStages inner token.kind operandClass token.text) s.look).2) := by
  simp only [operand_eq, bind_apply, current_apply, currentText_apply, look_look, hhead,
    Option.map_some, hoperand, Option.getD_some, pure_apply]

/-- No operand is read if the next token cannot start one. -/
theorem operand_apply_of_none (inner : Parser Unit) {s : State}
    (h : s.look.rest.head?.bind (operandOf? ·.kind) = none) :
    operand inner s = (none, s.look) := by
  cases hhead : s.look.rest.head? with
  | none => simp only [operand_eq, bind_apply, current_apply, hhead, Option.map_none, pure_apply]
  | some token =>
    rw [hhead, Option.bind_some] at h
    simp only [operand_eq, bind_apply, current_apply, hhead, Option.map_some, h, pure_apply]

end AlertAudit.Template.Parser
