import AlertAudit.Template.Builtin
import AlertAudit.Template.Parser

/-!
Pipelines: an optional declaration, then commands separated by bars, each of them operands
separated by spaces. A parenthesis holds a pipeline again; `parenthesized` bounds how deep they
nest.
-/

set_option autoImplicit false

namespace AlertAudit.Template.Parser

/-- What the first operand of a command says about whether the command can be run. -/
inductive OperandClass where
  | bool | dot | nil | number | string | executable
  deriving DecidableEq, Repr

/-- The node and the class of an operand by its first token. -/
def operandOf? : TokenKind → Option (NodeKind × OperandClass)
  | .identifier => some (.function, .executable)
  | .dot => some (.dot, .dot)
  | .keyword .nilWord => some (.literal, .nil)
  | .variable => some (.variable, .executable)
  | .field => some (.field, .executable)
  | .bool _ => some (.literal, .bool)
  | .charLit | .number => some (.literal, .number)
  | .str | .rawStr => some (.literal, .string)
  | .parenOpen => some (.paren, .executable)
  | _ => none

/-- What is wrong with the first token of an operand in a scope. -/
def operandFault? (vars : List String) (kind : TokenKind) (text : String) : Option Cause :=
  match kind with
  | .identifier => if Builtin.isDefined text then none else some (.undefinedFunction text)
  | .variable => if vars.contains text then none else some (.undefinedVariable text)
  | .charLit => if Literal.isCharConstant text then none else some (.malformedChar text)
  | .str | .rawStr => if (Literal.unquote text).isSome then none else some .invalidString
  | _ => none

/-- A term with the fields attached to it. `inner` reads what stands between parentheses. -/
def operand (inner : Parser Unit) : Parser (Option OperandClass) := do
  let some kind ← current | return none
  let some (nodeKind, operandClass) := operandOf? kind | return none
  let text ← currentText
  node nodeKind do
    if let some cause := operandFault? (← get).vars kind text then fail cause
    bump
    if kind = .parenOpen then
      inner
      unless ← failed do
        let _ ← eat .parenClose
    unless ← failed do
      if (← adjacent) = some .field then
        if operandClass = .executable then takeAll .field else fail (.fieldAfterTerm text)
  return some operandClass

/-- A token before which a command ends. -/
def endsCommand : Option TokenKind → Bool
  | some .rightDelim | some .parenClose | some .pipe => true
  | _ => false

/-- Operands separated by spaces. The result is the class of the first one. -/
def command (inner : Parser Unit) : Parser (Option OperandClass) :=
  node .command <| iterate (fun first ↦ do
    let next ← operand inner
    let first := first <|> next
    if ← failed then return (false, first)
    let separator ← if next.isSome then adjacent else current
    if next.isSome && separator = some .whitespace then return (true, first)
    unless endsCommand separator do unexpected .operand
    return (false, first)) none

/-- Whether a declaration goes on after a variable. -/
def continuesDecl : Option TokenKind → Bool
  | some .declare | some .assign | some .comma => true
  | _ => false

/-- A variable and the mark behind it. The result tells whether the mark ends the declaration. -/
def declared : Parser Bool := do
  let name ← currentText
  bump
  let mark ← current
  modify fun s ↦ { s with vars := name :: s.vars }
  bump
  return mark = some .declare || mark = some .assign

/-- Declares or assigns a variable; the header of a loop may name two. -/
def declaration (context : Context) : Parser Unit := do
  unless (← current) = some .variable && continuesDecl (← second) do return
  node .decl do
    if ← declared then return
    if context = .header .rangeBlock then
      match ← current with
      | some .variable =>
        if continuesDecl (← second) then
          unless ← declared do fail (.tooManyDeclarations context)
      | some .rightDelim | some .parenClose => return
      | _ => fail .rangeDeclaration
    else
      fail (.tooManyDeclarations context)

/-- What is wrong with a pipeline by the classes of its commands. -/
def pipelineFault? (context : Context) : List OperandClass → Option Cause
  | [] => some (.missingValue context)
  | first :: rest =>
    if first = .nil then some .nilCommand
    else (rest.findIdx? (· ≠ .executable)).map fun i ↦ .notExecutable (i + 2)

/-- A pipeline up to the token `close`, which stays in the input. -/
def pipeline (inner : Parser Unit) (context : Context) (close : TokenKind) : Parser Unit := do
  if ← failed then return
  node .pipeline do
    declaration context
    let _ ← iterate (fun (classes : List OperandClass) ↦ do
      if ← failed then return (false, classes)
      let next ← current
      if next = some close then
        if let some cause := pipelineFault? context classes then fail cause
        return (false, classes)
      unless next.any (·.startsOperand) do
        unexpected context
        return (false, classes)
      let first ← command inner
      if (← adjacent) = some .pipe then bump
      return (true, classes ++ first.toList)) []

/-- A pipeline in parentheses, which may hold parentheses to the given depth. -/
def parenthesized : Nat → Parser Unit
  | 0 => fail .tooDeep
  | depth + 1 => inParens (pipeline (parenthesized depth) .parenthesized .parenClose)

/-- The limit on nested parentheses. -/
def maxDepth : Nat := 1000

/-- The pipeline of an action, up to the right delimiter. -/
def actionPipeline (context : Context) : Parser Unit :=
  pipeline (parenthesized maxDepth) context .rightDelim

end AlertAudit.Template.Parser
